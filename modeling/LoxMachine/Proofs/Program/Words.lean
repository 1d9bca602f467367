import LoxMachine.Proofs.Token.Spelled

namespace LoxMachine

/-- A word of a program that is written back. -/
inductive Word where
  | kept (token : Token)
  | plain (kind : Kind)
deriving DecidableEq

namespace Word

def kind : Word → Kind
  | kept t => t.kind
  | plain k => k

/-- The token that the word stands for. What the tree does not keep, the line of a fixed word and
the spelling of a number, is taken from the given token. -/
def write (like : Token) : Word → Token
  | kept t => t
  | plain k => ⟨k, k.spelling.getD like.lexeme, like.line⟩

def Matches (same : Token → Token → Prop) : Word → Token → Prop
  | kept u, t => same u t
  | plain k, t => t.kind = k

end Word

/-- Words that stand for tokens, one for one. -/
inductive Spells (same : Token → Token → Prop) : List Word → List Token → Prop where
  | nil : Spells same [] []
  | cons {w : Word} {t : Token} {words : List Word} {tokens : List Token}
      (first : w.Matches same t) (rest : Spells same words tokens) :
      Spells same (w :: words) (t :: tokens)

namespace Spells

variable {same : Token → Token → Prop} {words words' : List Word} {tokens tokens' : List Token}

theorem append (left : Spells same words tokens) (right : Spells same words' tokens') :
    Spells same (words ++ words') (tokens ++ tokens') := by
  induction left with
  | nil => exact right
  | cons first _ ih => exact .cons first ih

theorem plain {t : Token} {k : Kind} (kind : t.kind = k) (rest : Spells same words tokens) :
    Spells same (.plain k :: words) (t :: tokens) :=
  .cons kind rest

theorem kept {t : Token} (rest : Spells Eq words tokens) :
    Spells Eq (.kept t :: words) (t :: tokens) :=
  .cons rfl rest

theorem uncons {w : Word} (spells : Spells same (w :: words) tokens) :
    ∃ t rest, tokens = t :: rest ∧ w.Matches same t ∧ Spells same words rest := by
  cases spells with
  | cons first rest => exact ⟨_, _, rfl, first, rest⟩

theorem length_eq (spells : Spells same words tokens) : words.length = tokens.length := by
  induction spells with
  | nil => rfl
  | cons _ _ ih => rw [List.length_cons, List.length_cons, ih]

theorem split (spells : Spells same (words ++ words') tokens) :
    ∃ left right, tokens = left ++ right ∧ Spells same words left ∧ Spells same words' right := by
  induction words generalizing tokens with
  | nil => exact ⟨[], tokens, rfl, .nil, spells⟩
  | cons w rest ih =>
    cases spells with
    | @cons _ t _ later first others =>
      obtain ⟨left, right, rfl, one, other⟩ := ih others
      exact ⟨t :: left, right, rfl, .cons first one, other⟩

/-- Tokens that are spelled as they should be can be written back from the words. -/
theorem written (spells : Spells Eq words tokens) (spelled : ∀ t ∈ tokens, t.Spelled) :
    List.zipWith (fun w t => w.write t) words tokens = tokens := by
  induction spells with
  | nil => rfl
  | @cons w t words tokens first _ ih =>
    obtain ⟨here, later⟩ := List.forall_mem_cons.mp spelled
    rw [List.zipWith_cons_cons, ih later]
    apply congrArg (· :: tokens)
    cases w with
    | kept u => exact first
    | plain k =>
      obtain ⟨kind, lexeme, line⟩ := t
      have kinds : kind = k := first
      subst kinds
      change (⟨kind, kind.spelling.getD lexeme, line⟩ : Token) = ⟨kind, lexeme, line⟩
      cases settled : kind.spelling with
      | none => rfl
      | some text =>
        have same : lexeme = text := here text settled
        rw [same, Option.getD_some]

end Spells

def listed : List (List Word) → List Word
  | [] => []
  | first :: rest => first ++ rest.flatMap (.plain (.symbol .comma) :: ·)

theorem sublist_listed {words : List Word} {items : List (List Word)} (member : words ∈ items) :
    words.Sublist (listed items) := by
  cases items with
  | nil => cases member
  | cons first rest =>
    rcases List.mem_cons.mp member with rfl | later
    · exact List.sublist_append_left _ _
    · have there := List.mem_map_of_mem (f := (.plain (.symbol .comma) :: ·)) later
      have within := List.sublist_flatten_of_mem there
      exact ((List.sublist_cons_self _ _).trans within).trans (List.sublist_append_right _ _)

/-- The kind of the token that a literal is read from. -/
def Literal.kind : Literal → Kind
  | .nil => .keyword .nilWord
  | .bool true => .keyword .trueWord
  | .bool false => .keyword .falseWord
  | .number n => .number n
  | .string s => .string s

mutual

/-- An expression, word by word. -/
def Expr.words : Expr → List Word
  | .literal _ value => [.plain value.kind]
  | .read use => [.kept use.name]
  | .assign _ name value => .kept name :: .plain (.symbol .equal) :: value.words
  | .unary _ operator right => .kept operator :: right.words
  | .binary _ left operator right | .logical _ left operator right =>
    left.words ++ .kept operator :: right.words
  | .grouping _ inner =>
    .plain (.symbol .leftParen) :: (inner.words ++ [.plain (.symbol .rightParen)])
  | .call _ callee paren arguments =>
    callee.words ++ .plain (.symbol .leftParen) :: (listed (exprsWords arguments) ++ [.kept paren])
  | .get _ object name => object.words ++ [.plain (.symbol .dot), .kept name]
  | .set _ object name value =>
    object.words ++ .plain (.symbol .dot) :: .kept name :: .plain (.symbol .equal) :: value.words
  | .this _ keyword => [.kept keyword]
  | .super _ keyword method => [.kept keyword, .plain (.symbol .dot), .kept method]

def exprsWords : List Expr → List (List Word)
  | [] => []
  | e :: rest => e.words :: exprsWords rest

end

def initializerWords : Option Expr → List Word
  | none => []
  | some e => .plain (.symbol .equal) :: e.words

def valueWords : Option Expr → List Word
  | none => []
  | some e => e.words

def heritageWords : Option Variable → List Word
  | none => []
  | some use => [.plain (.symbol .less), .kept use.name]

def paramsWords (params : List Token) : List Word :=
  .plain (.symbol .leftParen) ::
    (listed (params.map fun p => [.kept p]) ++ [.plain (.symbol .rightParen)])

mutual

/-- A statement, word by word. -/
def Stmt.words : Stmt → List Word
  | .expression _ e => e.words ++ [.plain (.symbol .semicolon)]
  | .print _ e => .plain (.keyword .printWord) :: (e.words ++ [.plain (.symbol .semicolon)])
  | .var _ name initializer =>
    .plain (.keyword .varWord) :: .kept name ::
      (initializerWords initializer ++ [.plain (.symbol .semicolon)])
  | .block _ body =>
    .plain (.symbol .leftBrace) :: (stmtsWords body ++ [.plain (.symbol .rightBrace)])
  | .branch _ condition yes none =>
    .plain (.keyword .ifWord) :: .plain (.symbol .leftParen) ::
      (condition.words ++ .plain (.symbol .rightParen) :: yes.words)
  | .branch _ condition yes (some no) =>
    .plain (.keyword .ifWord) :: .plain (.symbol .leftParen) ::
      (condition.words ++ .plain (.symbol .rightParen) ::
        (yes.words ++ .plain (.keyword .elseWord) :: no.words))
  | .loop _ condition body =>
    .plain (.keyword .whileWord) :: .plain (.symbol .leftParen) ::
      (condition.words ++ .plain (.symbol .rightParen) :: body.words)
  | .function decl => .plain (.keyword .funWord) :: decl.words
  | .returns _ keyword value => .kept keyword :: (valueWords value ++ [.plain (.symbol .semicolon)])
  | .classDecl _ name superclass methods =>
    .plain (.keyword .classWord) :: .kept name :: (heritageWords superclass ++
      .plain (.symbol .leftBrace) :: (methodsWords methods ++ [.plain (.symbol .rightBrace)]))

def stmtsWords : List Stmt → List Word
  | [] => []
  | s :: rest => s.words ++ stmtsWords rest

def FunctionDecl.words : FunctionDecl → List Word
  | .mk _ name params body =>
    .kept name :: (paramsWords params ++
      .plain (.symbol .leftBrace) :: (stmtsWords body ++ [.plain (.symbol .rightBrace)]))

def methodsWords : List FunctionDecl → List Word
  | [] => []
  | m :: rest => m.words ++ methodsWords rest

end

theorem exprsWords_eq (es : List Expr) : exprsWords es = es.map Expr.words := by
  induction es with
  | nil => rfl
  | cons e rest ih => rw [exprsWords, ih, List.map_cons]

theorem stmtsWords_eq (body : List Stmt) : stmtsWords body = body.flatMap Stmt.words := by
  induction body with
  | nil => rfl
  | cons s rest ih => rw [stmtsWords, ih, List.flatMap_cons]

theorem methodsWords_eq (methods : List FunctionDecl) :
    methodsWords methods = methods.flatMap FunctionDecl.words := by
  induction methods with
  | nil => rfl
  | cons m rest ih => rw [methodsWords, ih, List.flatMap_cons]

end LoxMachine
