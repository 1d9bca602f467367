import LoxMachine.Proofs.Form.Parsed
import LoxMachine.Proofs.Form.Shown
import LoxMachine.Proofs.Program.Functions

namespace LoxMachine

def nameToken (text : String) : Token := ⟨.identifier, text, 0⟩

def operatorToken (text : String) : Token :=
  match infixWords.find? (·.spelling == text), (prefixSymbols ++ infixSymbols).find? (·.spelling == text) with
  | some k, _ => ⟨.keyword k, text, 0⟩
  | none, some s => ⟨.symbol s, text, 0⟩
  | none, none => nameToken text

namespace Sexp

/-- The smallest expression that is written as a word. -/
def wordExpr (text : String) : Expr :=
  if text.toList.head?.any Piece.isDigit then .literal 0 (.number (.ofFixed text.toList))
  else
    match text with
    | "nil" => .literal 0 .nil
    | "true" => .literal 0 (.bool true)
    | "false" => .literal 0 (.bool false)
    | "this" => .this 0 ⟨.keyword .thisWord, "this", 0⟩
    | _ => .read ⟨0, nameToken text⟩

/-- The expression that is written as a list, from its items and what they are as expressions. -/
def listExpr : List Sexp → List Expr → Expr
  | [.word "=", .word name, _], [_, _, value] => .assign 0 (nameToken name) value
  | [.word "=", .list _, _], [_, .get _ object name, value] => .set 0 object name value
  | [.word ".", .word "super", .word method], _ =>
    .super 0 ⟨.keyword .superWord, "super", 0⟩ (nameToken method)
  | [.word ".", _, .word name], [_, object, _] => .get 0 object (nameToken name)
  | [.word "group", _], [_, inner] => .grouping 0 inner
  | .word "call" :: _, _ :: callee :: arguments =>
    .call 0 callee ⟨.symbol .rightParen, ")", 0⟩ arguments
  | [.word operator, _], [_, right] => .unary 0 (operatorToken operator) right
  | [.word operator, _, _], [_, left, right] =>
    if operator = "and" ∨ operator = "or" then .logical 0 left (operatorToken operator) right
    else .binary 0 left (operatorToken operator) right
  | _, _ => .literal 0 .nil

mutual

def expr : Sexp → Expr
  | word text => wordExpr text
  | quoted contents => .literal 0 (.string contents)
  | list items => listExpr items (exprs items)

def exprs : List Sexp → List Expr
  | [] => []
  | s :: rest => s.expr :: exprs rest

end

def name : Sexp → Token
  | word text => nameToken text
  | quoted _ | list _ => nameToken ""

/-- The statement that is written as a list, from its items and what they are as statements. -/
def listStmt : List Sexp → List Stmt → Stmt
  | [.word ";", e], _ => .expression 0 e.expr
  | [.word "print", e], _ => .print 0 e.expr
  | [.word "var", name], _ => .var 0 name.name none
  | [.word "var", name, _, e], _ => .var 0 name.name (some e.expr)
  | .word "block" :: _, _ :: body => .block 0 body
  | [.word "if", condition, _], [_, _, yes] => .branch 0 condition.expr yes none
  | [.word "if-else", condition, _, _], [_, _, yes, no] => .branch 0 condition.expr yes (some no)
  | [.word "while", condition, _], [_, _, body] => .loop 0 condition.expr body
  | .word "fun" :: name :: .list params :: _, _ :: _ :: _ :: body =>
    .function (.mk 0 name.name (params.map Sexp.name) body)
  | [.word "return"], _ => .returns 0 ⟨.keyword .returnWord, "return", 0⟩ none
  | [.word "return", e], _ => .returns 0 ⟨.keyword .returnWord, "return", 0⟩ (some e.expr)
  | .word "class" :: name :: .word "<" :: superName :: _, _ :: _ :: _ :: _ :: methods =>
    .classDecl 0 name.name (some ⟨0, superName.name⟩) (methods.flatMap Stmt.callables)
  | .word "class" :: name :: _, _ :: _ :: methods =>
    .classDecl 0 name.name none (methods.flatMap Stmt.callables)
  | _, _ => .block 0 []

mutual

def stmt : Sexp → Stmt
  | word _ | quoted _ => .block 0 []
  | list items => listStmt items (stmts items)

def stmts : List Sexp → List Stmt
  | [] => []
  | s :: rest => s.stmt :: stmts rest

end

end Sexp

theorem Token.Named.bare {t : Token} (named : t.Named) : t.bare = nameToken t.lexeme := by
  rw [Token.bare, named.1, nameToken]

theorem wordExpr_fixed {n : Number} (spellable : n.Spellable) :
    Sexp.wordExpr n.fixed = .literal 0 (.number n) := by
  obtain ⟨c, cs, same, digit, -⟩ := Number.digits_fixed spellable
  have first : n.fixed.toList.head?.any Piece.isDigit = true := by
    rw [same]
    exact digit
  unfold Sexp.wordExpr
  rw [if_pos first, Number.ofFixed_fixed spellable]

theorem wordExpr_name {t : Token} (named : t.Named) :
    Sexp.wordExpr t.lexeme = .read ⟨0, t.bare⟩ := by
  have nameable := named.2.name named.1
  obtain ⟨first, others, letters, start, -⟩ := nameable.letters
  have no_digit : t.lexeme.toList.head?.any Piece.isDigit = false := by
    rw [letters]
    exact Piece.not_digit_of_wordStart start
  unfold Sexp.wordExpr
  rw [no_digit, named.bare]
  have reserved := nameable.ne_spelling
  split
  · rename_i absurd
    cases absurd
  · split
    · rename_i same
      exact absurd same (reserved .nilWord)
    · rename_i same
      exact absurd same (reserved .trueWord)
    · rename_i same
      exact absurd same (reserved .falseWord)
    · rename_i same
      exact absurd same (reserved .thisWord)
    · rfl

theorem listExpr_unary {operator : Token} (here : ∃ s ∈ prefixSymbols, operator.Is (.symbol s))
    (item : Sexp) (skipped right : Expr) :
    Sexp.listExpr [operator.sexp, item] [skipped, right] = .unary 0 operator.bare right := by
  obtain ⟨s, member, here⟩ := here
  obtain ⟨lexeme, bare⟩ := here.bare rfl
  rw [Token.sexp, lexeme, bare]
  simp only [prefixSymbols, List.mem_cons, List.not_mem_nil, or_false] at member
  rcases member with rfl | rfl <;> rfl

theorem listExpr_binary {operator : Token} (here : ∃ s ∈ infixSymbols, operator.Is (.symbol s))
    (item item' : Sexp) (skipped left right : Expr) :
    Sexp.listExpr [operator.sexp, item, item'] [skipped, left, right] =
      .binary 0 left operator.bare right := by
  obtain ⟨s, member, here⟩ := here
  obtain ⟨lexeme, bare⟩ := here.bare rfl
  rw [Token.sexp, lexeme, bare]
  simp only [infixSymbols, List.mem_cons, List.not_mem_nil, or_false] at member
  rcases member with rfl | rfl | rfl | rfl | rfl | rfl | rfl | rfl | rfl | rfl <;> rfl

theorem listExpr_logical {operator : Token} (here : ∃ k ∈ infixWords, operator.Is (.keyword k))
    (item item' : Sexp) (skipped left right : Expr) :
    Sexp.listExpr [operator.sexp, item, item'] [skipped, left, right] =
      .logical 0 left operator.bare right := by
  obtain ⟨k, member, here⟩ := here
  obtain ⟨lexeme, bare⟩ := here.bare rfl
  rw [Token.sexp, lexeme, bare]
  simp only [infixWords, List.mem_cons, List.not_mem_nil, or_false] at member
  rcases member with rfl | rfl <;> rfl

theorem sexp_ne_super {e : Expr} (legible : e.Legible) : e.sexp ≠ .word "super" := by
  intro same
  cases e with
  | literal id value =>
    cases value with
    | nil => exact absurd (Sexp.word.inj same) (by decide)
    | bool b => cases b <;> exact absurd (Sexp.word.inj same) (by decide)
    | string s => cases same
    | number n =>
      obtain ⟨c, cs, digits, digit, -⟩ := Number.digits_fixed legible
      rw [Sexp.word.inj same] at digits
      cases digits
      cases digit
  | read use => exact (legible.2.name legible.1).ne_spelling .superWord (Sexp.word.inj same)
  | this => exact absurd (Sexp.word.inj same) (by decide)
  | assign | unary | binary | logical | grouping | call | get | set | super => cases same

theorem listExpr_get {object : Sexp} (other : object ≠ .word "super") (name : String)
    (skipped target last : Expr) :
    Sexp.listExpr [.word ".", object, .word name] [skipped, target, last] =
      .get 0 target (nameToken name) := by
  cases object with
  | quoted | list => rfl
  | word text =>
    by_cases same : text = "super"
    · exact absurd (congrArg Sexp.word same) other
    · simp [Sexp.listExpr]

theorem expr_of_property {object : Expr} (legible : object.Legible)
    (inner : object.sexp.expr = object.bare) (name : Token) :
    (Sexp.list [.word ".", object.sexp, name.sexp]).expr =
      .get 0 object.bare (nameToken name.lexeme) := by
  change Sexp.listExpr [.word ".", object.sexp, .word name.lexeme]
    [_, object.sexp.expr, name.sexp.expr] = _
  rw [listExpr_get (sexp_ne_super legible), inner]

mutual

/-- An expression is read back from its list. -/
theorem expr_of_sexp (e : Expr) (legible : e.Legible) : e.sexp.expr = e.bare := by
  match e with
  | .literal _ value =>
    cases value with
    | nil => rfl
    | bool b => cases b <;> rfl
    | string s => rfl
    | number n => exact wordExpr_fixed legible
  | .read use => exact wordExpr_name legible
  | .assign _ name value =>
    have inner := expr_of_sexp value legible.2
    change Expr.assign 0 (nameToken name.lexeme) value.sexp.expr = .assign 0 name.bare value.bare
    rw [inner, legible.1.bare]
  | .unary _ operator right =>
    have inner := expr_of_sexp right legible.2
    change Sexp.listExpr [operator.sexp, right.sexp] [operator.sexp.expr, right.sexp.expr] = _
    rw [listExpr_unary legible.1, inner]
    rfl
  | .binary _ left operator right =>
    have one := expr_of_sexp left legible.2.1
    have other := expr_of_sexp right legible.2.2
    change Sexp.listExpr [operator.sexp, left.sexp, right.sexp]
      [operator.sexp.expr, left.sexp.expr, right.sexp.expr] = _
    rw [listExpr_binary legible.1, one, other]
    rfl
  | .logical _ left operator right =>
    have one := expr_of_sexp left legible.2.1
    have other := expr_of_sexp right legible.2.2
    change Sexp.listExpr [operator.sexp, left.sexp, right.sexp]
      [operator.sexp.expr, left.sexp.expr, right.sexp.expr] = _
    rw [listExpr_logical legible.1, one, other]
    rfl
  | .grouping _ inner => exact congrArg (Expr.grouping 0) (expr_of_sexp inner legible)
  | .call _ callee paren arguments =>
    -- the list does not show the parenthesis, but there is only one that it can be
    have first := expr_of_sexp callee legible.1
    have others := exprs_of_sexps arguments legible.2.2
    change Expr.call 0 callee.sexp.expr ⟨.symbol .rightParen, ")", 0⟩ (Sexp.exprs (exprsSexps arguments)) = _
    rw [first, others, Expr.bare, (legible.2.1.bare rfl).2]
    rfl
  | .get _ object name =>
    have target := expr_of_property legible.1 (expr_of_sexp object legible.1) name
    rw [Expr.bare, legible.2.bare]
    exact target
  | .set _ object name value =>
    have target := expr_of_property legible.1 (expr_of_sexp object legible.1) name
    have last := expr_of_sexp value legible.2.2
    change Sexp.listExpr [.word "=", .list _, value.sexp]
      [_, (Sexp.list [.word ".", object.sexp, name.sexp]).expr, value.sexp.expr] = _
    rw [target, last, Expr.bare, legible.2.1.bare]
    rfl
  | .this _ keyword =>
    rw [Expr.bare, (legible.bare rfl).2]
    rfl
  | .super _ keyword method =>
    rw [Expr.bare, (legible.1.bare rfl).2, legible.2.bare]
    rfl

theorem exprs_of_sexps (es : List Expr) (legible : ExprsLegible es) :
    Sexp.exprs (exprsSexps es) = exprsBare es := by
  match es with
  | [] => rfl
  | e :: rest =>
    have first := expr_of_sexp e legible.1
    have others := exprs_of_sexps rest legible.2
    rw [exprsSexps, Sexp.exprs, first, others, exprsBare]

end

theorem names_of_params {params : List Token} (named : ∀ p ∈ params, p.Named) :
    (params.map Token.sexp).map Sexp.name = params.map Token.bare := by
  rw [List.map_map]
  apply List.map_congr_left
  intro p member
  exact (named p member).bare.symm

theorem flatMap_callables (methods : List FunctionDecl) :
    (methods.map Stmt.function).flatMap Stmt.callables = methods := by
  rw [List.flatMap_map]
  exact List.flatMap_singleton' methods

theorem listStmt_class (name : Token) (methods : List FunctionDecl) (first second : Stmt)
    (others : List Stmt) :
    Sexp.listStmt (.word "class" :: name.sexp :: methodsSexps methods) (first :: second :: others) =
      .classDecl 0 (nameToken name.lexeme) none (others.flatMap Stmt.callables) := by
  cases methods with
  | nil => rfl
  | cons m rest =>
    cases m
    rfl

mutual

/-- A statement is read back from its list. -/
theorem stmt_of_sexp (s : Stmt) (legible : s.Legible) : s.sexp.stmt = s.bare := by
  match s with
  | .expression _ e => exact congrArg (Stmt.expression 0) (expr_of_sexp e legible)
  | .print _ e => exact congrArg (Stmt.print 0) (expr_of_sexp e legible)
  | .var _ name none =>
    rw [Stmt.bare, legible.1.bare]
    rfl
  | .var _ name (some e) =>
    rw [Stmt.bare, legible.1.bare, Option.map_some, ← expr_of_sexp e (legible.2 e rfl)]
    rfl
  | .block _ body => exact congrArg (Stmt.block 0) (stmts_of_sexps body legible)
  | .branch _ condition yes none =>
    rw [Stmt.bare, ← expr_of_sexp condition legible.1, ← stmt_of_sexp yes legible.2]
    rfl
  | .branch _ condition yes (some no) =>
    rw [Stmt.bare, ← expr_of_sexp condition legible.1, ← stmt_of_sexp yes legible.2.1,
      ← stmt_of_sexp no legible.2.2]
    rfl
  | .loop _ condition body =>
    rw [Stmt.bare, ← expr_of_sexp condition legible.1, ← stmt_of_sexp body legible.2]
    rfl
  | .function decl => exact function_of_sexp decl legible
  | .returns _ keyword none =>
    rw [Stmt.bare, (legible.1.bare rfl).2]
    rfl
  | .returns _ keyword (some e) =>
    rw [Stmt.bare, (legible.1.bare rfl).2, Option.map_some, ← expr_of_sexp e (legible.2 e rfl)]
    rfl
  | .classDecl _ name none methods =>
    have inner := methods_of_sexps methods legible.2.2
    change Sexp.listStmt (.word "class" :: name.sexp :: methodsSexps methods)
      (_ :: _ :: Sexp.stmts (methodsSexps methods)) = _
    rw [listStmt_class, inner, flatMap_callables, Stmt.bare, legible.1.bare]
    rfl
  | .classDecl _ name (some use) methods =>
    have inner := methods_of_sexps methods legible.2.2
    have inherited : use.name.Named := legible.2.1 use rfl
    change Stmt.classDecl 0 (nameToken name.lexeme) (some ⟨0, nameToken use.name.lexeme⟩)
      ((Sexp.stmts (methodsSexps methods)).flatMap Stmt.callables) = _
    rw [inner, flatMap_callables, Stmt.bare, legible.1.bare, Option.map_some, Variable.bare,
      inherited.bare]

theorem stmts_of_sexps (body : List Stmt) (legible : StmtsLegible body) :
    Sexp.stmts (stmtsSexps body) = stmtsBare body := by
  match body with
  | [] => rfl
  | s :: rest =>
    rw [stmtsSexps, Sexp.stmts, stmt_of_sexp s legible.1, stmts_of_sexps rest legible.2, stmtsBare]

theorem function_of_sexp (decl : FunctionDecl) (legible : decl.Legible) :
    decl.sexp.stmt = .function decl.bare := by
  match decl with
  | .mk _ name params body =>
    have inner := stmts_of_sexps body legible.2.2
    change Stmt.function (.mk 0 (nameToken name.lexeme) ((params.map Token.sexp).map Sexp.name)
      (Sexp.stmts (stmtsSexps body))) = _
    rw [inner, names_of_params legible.2.1, FunctionDecl.bare, legible.1.bare]

theorem methods_of_sexps (methods : List FunctionDecl) (legible : MethodsLegible methods) :
    Sexp.stmts (methodsSexps methods) = (methodsBare methods).map Stmt.function := by
  match methods with
  | [] => rfl
  | m :: rest =>
    rw [methodsSexps, Sexp.stmts, function_of_sexp m legible.1, methods_of_sexps rest legible.2,
      methodsBare, List.map_cons]

end

theorem bare_of_form {s s' : Stmt} (legible : s.Legible) (legible' : s'.Legible)
    (same : s.form = s'.form) : s.bare = s'.bare := by
  have lists : s.sexp = s'.sexp := by
    apply Sexp.eq_of_text (s.legible_sexp legible) (s'.legible_sexp legible')
    rw [← s.form_eq, ← s'.form_eq, same]
  rw [← stmt_of_sexp s legible, ← stmt_of_sexp s' legible', lists]

/-- Two programs of which the statements have the same forms, one by one, are the same up to the
numbers of nodes and the lines of tokens. -/
theorem bare_of_forms {source source' : String} {tokens tokens' : List Token} {i i' : NodeId}
    {body body' : List Stmt} {stop stop' : Cursor}
    (scanned : tokenize source = .ok tokens) (parsed : parse i tokens = (.ok body, stop))
    (scanned' : tokenize source' = .ok tokens') (parsed' : parse i' tokens' = (.ok body', stop'))
    (same : body.map Stmt.form = body'.map Stmt.form) : stmtsBare body = stmtsBare body' := by
  have legible := legible_of_parse (legible_of_tokenize scanned) parsed
  have legible' := legible_of_parse (legible_of_tokenize scanned') parsed'
  clear scanned parsed scanned' parsed'
  induction body generalizing body' with
  | nil =>
    rw [List.map_nil, eq_comm, List.map_eq_nil_iff] at same
    rw [same]
  | cons s rest ih =>
    cases body' with
    | nil => cases same
    | cons s' rest' =>
      obtain ⟨here, later⟩ := List.cons.inj same
      obtain ⟨first, others⟩ := List.forall_mem_cons.mp legible
      obtain ⟨first', others'⟩ := List.forall_mem_cons.mp legible'
      rw [stmtsBare, stmtsBare, bare_of_form first first' here, ih later others others']

def pricedCall (i : NodeId) (line : Nat) : Stmt :=
  .expression (i + 3) (.call (i + 2) (.read ⟨i, ⟨.identifier, "f", line⟩⟩) ⟨.symbol .rightParen, ")", line⟩
    [.literal (i + 1) (.number ⟨false, 100, -2⟩)])

/-- A `for` loop without clauses is shown as the `while` loop that it stands for. -/
theorem bare_of_forms_loops : ∃ tokens tokens' stop stop',
    tokenize "for (;;) f(1.00);" = .ok tokens ∧
      parse 0 tokens = (.ok [.loop 5 (.literal 4 (.bool true)) (pricedCall 0 1)], stop) ∧
      tokenize "while (true)\nf(1.00);" = .ok tokens' ∧
      parse 0 tokens' = (.ok [.loop 5 (.literal 0 (.bool true)) (pricedCall 1 2)], stop') ∧
      stmtsBare [.loop 5 (.literal 4 (.bool true)) (pricedCall 0 1)] =
        stmtsBare [.loop 5 (.literal 0 (.bool true)) (pricedCall 1 2)] := by
  have clauses : ∃ tokens stop, tokenize "for (;;) f(1.00);" = .ok tokens ∧
      parse 0 tokens = (.ok [.loop 5 (.literal 4 (.bool true)) (pricedCall 0 1)], stop) :=
    ⟨_, _, rfl, rfl⟩
  have condition : ∃ tokens stop, tokenize "while (true)\nf(1.00);" = .ok tokens ∧
      parse 0 tokens = (.ok [.loop 5 (.literal 0 (.bool true)) (pricedCall 1 2)], stop) :=
    ⟨_, _, rfl, rfl⟩
  obtain ⟨tokens, stop, scanned, parsed⟩ := clauses
  obtain ⟨tokens', stop', scanned', parsed'⟩ := condition
  exact ⟨tokens, tokens', stop, stop', scanned, parsed, scanned', parsed',
    bare_of_forms scanned parsed scanned' parsed' rfl⟩

end LoxMachine
