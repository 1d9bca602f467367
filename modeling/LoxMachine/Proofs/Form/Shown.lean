import LoxMachine.Proofs.Form.Legible
import LoxMachine.Proofs.Form.Sexp

namespace LoxMachine

def Literal.sexp : Literal → Sexp
  | .nil => .word "nil"
  | .bool true => .word "true"
  | .bool false => .word "false"
  | .number n => .word n.fixed
  | .string s => .quoted s

def Token.sexp (t : Token) : Sexp := .word t.lexeme

mutual

def Expr.sexp : Expr → Sexp
  | .literal _ value => value.sexp
  | .read use => use.name.sexp
  | .assign _ name value => .list [.word "=", name.sexp, value.sexp]
  | .unary _ operator right => .list [operator.sexp, right.sexp]
  | .binary _ left operator right | .logical _ left operator right =>
    .list [operator.sexp, left.sexp, right.sexp]
  | .grouping _ inner => .list [.word "group", inner.sexp]
  | .call _ callee _ arguments => .list (.word "call" :: callee.sexp :: exprsSexps arguments)
  | .get _ object name => .list [.word ".", object.sexp, name.sexp]
  | .set _ object name value =>
    .list [.word "=", .list [.word ".", object.sexp, name.sexp], value.sexp]
  | .this _ _ => .word "this"
  | .super _ _ method => .list [.word ".", .word "super", method.sexp]

def exprsSexps : List Expr → List Sexp
  | [] => []
  | e :: rest => e.sexp :: exprsSexps rest

end

def heritageSexps : Option Variable → List Sexp
  | none => []
  | some use => [.word "<", use.name.sexp]

mutual

def Stmt.sexp : Stmt → Sexp
  | .expression _ e => .list [.word ";", e.sexp]
  | .print _ e => .list [.word "print", e.sexp]
  | .var _ name none => .list [.word "var", name.sexp]
  | .var _ name (some e) => .list [.word "var", name.sexp, .word "=", e.sexp]
  | .block _ body => .list (.word "block" :: stmtsSexps body)
  | .branch _ condition yes none => .list [.word "if", condition.sexp, yes.sexp]
  | .branch _ condition yes (some no) =>
    .list [.word "if-else", condition.sexp, yes.sexp, no.sexp]
  | .loop _ condition body => .list [.word "while", condition.sexp, body.sexp]
  | .function decl => decl.sexp
  | .returns _ _ none => .list [.word "return"]
  | .returns _ _ (some e) => .list [.word "return", e.sexp]
  | .classDecl _ name superclass methods =>
    .list (.word "class" :: name.sexp :: (heritageSexps superclass ++ methodsSexps methods))

def stmtsSexps : List Stmt → List Sexp
  | [] => []
  | s :: rest => s.sexp :: stmtsSexps rest

def FunctionDecl.sexp : FunctionDecl → Sexp
  | .mk _ name params body =>
    .list (.word "fun" :: name.sexp :: .list (params.map Token.sexp) :: stmtsSexps body)

def methodsSexps : List FunctionDecl → List Sexp
  | [] => []
  | m :: rest => m.sexp :: methodsSexps rest

end

open Sexp (texts)

theorem Literal.form_eq (value : Literal) : value.form = value.sexp.text := by
  cases value with
  | bool b => cases b <;> rfl
  | nil | number | string => rfl

mutual

theorem Expr.form_eq (e : Expr) : e.form = e.sexp.text := by
  match e with
  | .literal _ value => exact value.form_eq
  | .read _ | .this _ _ | .super _ _ _ => rfl
  | .assign _ _ inner | .unary _ _ inner | .grouping _ inner | .get _ inner _ =>
    rw [Expr.form, inner.form_eq]
    rfl
  | .binary _ left _ right | .logical _ left _ right | .set _ left _ right =>
    rw [Expr.form, left.form_eq, right.form_eq]
    rfl
  | .call _ callee _ arguments =>
    rw [Expr.form, callee.form_eq, exprsForms_eq arguments]
    rfl

theorem exprsForms_eq (es : List Expr) : Expr.forms es = texts (exprsSexps es) := by
  match es with
  | [] => rfl
  | e :: rest =>
    rw [Expr.forms, e.form_eq, exprsForms_eq rest]
    rfl

end

theorem texts_params (params : List Token) :
    params.map (·.lexeme) = texts (params.map Token.sexp) := by
  rw [Sexp.texts_eq, List.map_map]
  rfl

mutual

theorem Stmt.form_eq (s : Stmt) : s.form = s.sexp.text := by
  match s with
  | .expression _ e | .print _ e | .var _ _ (some e) | .returns _ _ (some e) =>
    rw [Stmt.form, e.form_eq]
    rfl
  | .var _ _ none | .returns _ _ none => rfl
  | .block _ body =>
    rw [Stmt.form, stmtsForms_eq body]
    rfl
  | .branch _ condition yes none =>
    rw [Stmt.form, condition.form_eq, yes.form_eq]
    rfl
  | .branch _ condition yes (some no) =>
    rw [Stmt.form, condition.form_eq, yes.form_eq, no.form_eq]
    rfl
  | .loop _ condition body =>
    rw [Stmt.form, condition.form_eq, body.form_eq]
    rfl
  | .function decl => exact decl.form_eq
  | .classDecl _ name superclass methods =>
    unfold Stmt.form
    rw [methodsForms_eq methods]
    cases superclass <;> rfl

theorem stmtsForms_eq (body : List Stmt) : Stmt.forms body = texts (stmtsSexps body) := by
  match body with
  | [] => rfl
  | s :: rest =>
    rw [Stmt.forms, s.form_eq, stmtsForms_eq rest]
    rfl

theorem FunctionDecl.form_eq (decl : FunctionDecl) : Stmt.functionForm decl = decl.sexp.text := by
  match decl with
  | .mk _ name params body =>
    rw [Stmt.functionForm, texts_params, stmtsForms_eq body]
    rfl

theorem methodsForms_eq (methods : List FunctionDecl) :
    Stmt.functionForms methods = texts (methodsSexps methods) := by
  match methods with
  | [] => rfl
  | m :: rest =>
    rw [Stmt.functionForms, m.form_eq, methodsForms_eq rest]
    rfl

end

theorem not_delimiter {c : Char} (part : Piece.isWordPart c = true ∨ Piece.isDigit c = true ∨ c = '.') :
    Sexp.isDelimiter c = false := by
  by_contra delimiter
  simp only [Sexp.isDelimiter, Bool.not_eq_false, Bool.or_eq_true, beq_iff_eq] at delimiter
  rcases delimiter with ((rfl | rfl) | rfl) | rfl <;> revert part <;> decide

theorem Nameable.letters {text : String} (nameable : Nameable text) : ∃ first others,
    text.toList = first :: others ∧ Piece.isWordStart first = true ∧
      ∀ c ∈ text.toList, Piece.isWordPart c = true := by
  obtain ⟨-, lexical⟩ := nameable
  cases letters : text.toList with
  | nil =>
    rw [letters] at lexical
    exact lexical.elim
  | cons first others =>
    rw [letters] at lexical
    refine ⟨first, others, rfl, lexical.1, List.forall_mem_cons.mpr ⟨?_, lexical.2⟩⟩
    rw [Piece.isWordPart, lexical.1]
    rfl

theorem Nameable.ne_spelling {text : String} (nameable : Nameable text) (k : Keyword) :
    text ≠ k.spelling := by
  rintro rfl
  have found := nameable.1
  revert found
  cases k <;> decide

theorem Token.Named.legible_sexp {t : Token} (named : t.Named) : t.sexp.Legible := by
  obtain ⟨first, others, letters, -, parts⟩ := (named.2.name named.1).letters
  constructor
  · rw [letters]
    exact List.cons_ne_nil _ _
  · exact fun c member => not_delimiter (.inl (parts c member))

theorem Number.Spellable.legible_word {n : Number} (spellable : n.Spellable) :
    (Sexp.word n.fixed).Legible := by
  obtain ⟨c, cs, same, -, all⟩ := Number.digits_fixed spellable
  constructor
  · rw [same]
    exact List.cons_ne_nil _ _
  · rw [same]
    exact fun d member => not_delimiter (.inr (all d member))

theorem legible_symbol {s : Symbol} (member : s ∈ prefixSymbols ++ infixSymbols) :
    (Sexp.word s.spelling).Legible := by
  have all : ∀ s ∈ prefixSymbols ++ infixSymbols, s.spelling.toList ≠ [] ∧
      s.spelling.toList.all (!Sexp.isDelimiter ·) = true := by decide
  exact Sexp.legible_word (all s member)

theorem legible_keyword (k : Keyword) : (Sexp.word k.spelling).Legible := by
  apply Sexp.legible_word
  cases k <;> decide

theorem Literal.legible_sexp {value : Literal} (legible : value.kind.Legible) :
    value.sexp.Legible := by
  cases value with
  | nil => exact legible_keyword .nilWord
  | bool b =>
    cases b with
    | true => exact legible_keyword .trueWord
    | false => exact legible_keyword .falseWord
  | number n => exact Number.Spellable.legible_word legible
  | string s => exact legible

theorem legible_operator {operator : Token} {symbols : List Symbol}
    (within : ∀ s ∈ symbols, s ∈ prefixSymbols ++ infixSymbols)
    (here : ∃ s ∈ symbols, operator.Is (.symbol s)) : operator.sexp.Legible := by
  obtain ⟨s, member, here⟩ := here
  rw [Token.sexp, (here.bare rfl).1]
  exact legible_symbol (within s member)

mutual

theorem Expr.legible_sexp (e : Expr) (legible : e.Legible) : e.sexp.Legible := by
  match e with
  | .literal _ value => exact Literal.legible_sexp legible
  | .read use => exact Token.Named.legible_sexp legible
  | .assign _ name value =>
    exact ⟨Sexp.legible_word (by decide), legible.1.legible_sexp, value.legible_sexp legible.2,
      True.intro⟩
  | .unary _ operator right =>
    exact ⟨legible_operator (by decide) legible.1, right.legible_sexp legible.2, True.intro⟩
  | .binary _ left operator right =>
    exact ⟨legible_operator (by decide) legible.1, left.legible_sexp legible.2.1,
      right.legible_sexp legible.2.2, True.intro⟩
  | .logical _ left operator right =>
    obtain ⟨⟨k, -, here⟩, one, other⟩ := legible
    have word : operator.sexp.Legible := by
      rw [Token.sexp, (here.bare rfl).1]
      exact legible_keyword k
    exact ⟨word, left.legible_sexp one, right.legible_sexp other, True.intro⟩
  | .grouping _ inner =>
    exact ⟨Sexp.legible_word (by decide), inner.legible_sexp legible, True.intro⟩
  | .call _ callee _ arguments =>
    exact ⟨Sexp.legible_word (by decide), callee.legible_sexp legible.1,
      exprsLegible_sexps arguments legible.2.2⟩
  | .get _ object name =>
    exact ⟨Sexp.legible_word (by decide), object.legible_sexp legible.1, legible.2.legible_sexp,
      True.intro⟩
  | .set _ object name value =>
    have target : (Sexp.list [.word ".", object.sexp, name.sexp]).Legible :=
      ⟨Sexp.legible_word (by decide), object.legible_sexp legible.1, legible.2.1.legible_sexp, True.intro⟩
    exact ⟨Sexp.legible_word (by decide), target, value.legible_sexp legible.2.2, True.intro⟩
  | .this _ _ => exact legible_keyword .thisWord
  | .super _ _ method =>
    exact ⟨Sexp.legible_word (by decide), legible_keyword .superWord, legible.2.legible_sexp,
      True.intro⟩

theorem exprsLegible_sexps (es : List Expr) (legible : ExprsLegible es) :
    Sexp.AllLegible (exprsSexps es) := by
  match es with
  | [] => exact True.intro
  | e :: rest => exact ⟨e.legible_sexp legible.1, exprsLegible_sexps rest legible.2⟩

end

theorem legible_params {params : List Token} (named : ∀ p ∈ params, p.Named) :
    (Sexp.list (params.map Token.sexp)).Legible := by
  apply Sexp.allLegible_iff.mpr
  intro s member
  obtain ⟨p, there, rfl⟩ := List.mem_map.mp member
  exact (named p there).legible_sexp

mutual

theorem Stmt.legible_sexp (s : Stmt) (legible : s.Legible) : s.sexp.Legible := by
  match s with
  | .expression _ e | .print _ e =>
    exact ⟨Sexp.legible_word (by decide), e.legible_sexp legible, True.intro⟩
  | .var _ name none => exact ⟨Sexp.legible_word (by decide), legible.1.legible_sexp, True.intro⟩
  | .var _ name (some e) =>
    exact ⟨Sexp.legible_word (by decide), legible.1.legible_sexp, Sexp.legible_word (by decide),
      e.legible_sexp (legible.2 e rfl), True.intro⟩
  | .block _ body => exact ⟨Sexp.legible_word (by decide), stmtsLegible_sexps body legible⟩
  | .branch _ condition yes none =>
    exact ⟨Sexp.legible_word (by decide), condition.legible_sexp legible.1, yes.legible_sexp legible.2,
      True.intro⟩
  | .branch _ condition yes (some no) =>
    exact ⟨Sexp.legible_word (by decide), condition.legible_sexp legible.1,
      yes.legible_sexp legible.2.1, no.legible_sexp legible.2.2, True.intro⟩
  | .loop _ condition body =>
    exact ⟨Sexp.legible_word (by decide), condition.legible_sexp legible.1,
      body.legible_sexp legible.2, True.intro⟩
  | .function decl => exact decl.legible_sexp legible
  | .returns _ _ none => exact ⟨legible_keyword .returnWord, True.intro⟩
  | .returns _ _ (some e) =>
    exact ⟨legible_keyword .returnWord, e.legible_sexp (legible.2 e rfl), True.intro⟩
  | .classDecl _ name none methods =>
    exact ⟨Sexp.legible_word (by decide), legible.1.legible_sexp,
      methodsLegible_sexps methods legible.2.2⟩
  | .classDecl _ name (some use) methods =>
    have inherited : use.name.Named := legible.2.1 use rfl
    exact ⟨Sexp.legible_word (by decide), legible.1.legible_sexp, Sexp.legible_word (by decide),
      inherited.legible_sexp, methodsLegible_sexps methods legible.2.2⟩

theorem stmtsLegible_sexps (body : List Stmt) (legible : StmtsLegible body) :
    Sexp.AllLegible (stmtsSexps body) := by
  match body with
  | [] => exact True.intro
  | s :: rest => exact ⟨s.legible_sexp legible.1, stmtsLegible_sexps rest legible.2⟩

theorem FunctionDecl.legible_sexp (decl : FunctionDecl) (legible : decl.Legible) :
    decl.sexp.Legible := by
  match decl with
  | .mk _ name params body =>
    exact ⟨legible_keyword .funWord, legible.1.legible_sexp, legible_params legible.2.1,
      stmtsLegible_sexps body legible.2.2⟩

theorem methodsLegible_sexps (methods : List FunctionDecl) (legible : MethodsLegible methods) :
    Sexp.AllLegible (methodsSexps methods) := by
  match methods with
  | [] => exact True.intro
  | m :: rest => exact ⟨m.legible_sexp legible.1, methodsLegible_sexps rest legible.2⟩

end

end LoxMachine
