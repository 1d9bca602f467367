import LoxMachine.Grammar.Declaration
import LoxMachine.Proofs.Program.Renamed

namespace LoxMachine

def Cursor.shift (k : Nat) (c : Cursor) : Cursor := ⟨c.rest, c.nextId + k⟩

namespace Reader

variable {α β γ δ : Type}

/-- What the first reader builds the second one builds with larger numbers; `change` says what that
is. -/
def Shifts (k : Nat) (change : α → β) (r : Reader α) (r' : Reader β) : Prop :=
  ∀ c, r' (c.shift k) =
    match r c with
    | .ok a c' => .ok (change a) (c'.shift k)
    | .error e c' => .error e (c'.shift k)

namespace Shifts

variable {k : Nat} {change : α → β} {change' : γ → δ} {r : Reader α} {r' : Reader β}

theorem pure {a : α} {b : β} (same : change a = b) :
    Shifts k change (Pure.pure a) (Pure.pure b) := by
  intro c
  rw [← same]
  rfl

theorem bind {f : α → Reader γ} {f' : β → Reader δ} (one : Shifts k change r r')
    (two : ∀ a, Shifts k change' (f a) (f' (change a))) :
    Shifts k change' (r >>= f) (r' >>= f') := by
  intro c
  change EStateM.bind r' f' (c.shift k) = match EStateM.bind r f c with
    | .ok a c' => .ok (change' a) (c'.shift k)
    | .error e c' => .error e (c'.shift k)
  unfold EStateM.bind
  rw [one c]
  cases r c with
  | ok a c' => exact two a c'
  | error e c' => rfl

theorem map {g : α → γ} {g' : β → δ} (one : Shifts k change r r')
    (same : ∀ a, change' (g a) = g' (change a)) : Shifts k change' (g <$> r) (g' <$> r') :=
  one.bind fun a => pure (same a)

theorem unexpected (expected : Expectation) (found : Token) :
    Shifts k change (Reader.unexpected expected found) (Reader.unexpected expected found) :=
  fun _ => rfl

theorem current : Shifts k id Reader.current Reader.current := fun _ => rfl

theorem take : Shifts k id Reader.take Reader.take := by
  intro c
  obtain ⟨rest, i⟩ := c
  change EStateM.Result.ok _ (Cursor.next ⟨rest, i + k⟩) =
    .ok _ (Cursor.shift k (Cursor.next ⟨rest, i⟩))
  cases rest with
  | nil => rfl
  | cons t rest =>
    simp only [Cursor.next]
    split <;> rfl

theorem takeIf (test : Token → Bool) : Shifts k id (Reader.takeIf test) (Reader.takeIf test) := by
  apply current.bind
  intro t
  simp only [id]
  split
  · exact take.bind fun _ => pure rfl
  · exact pure rfl

theorem accept (s : Symbol) : Shifts k id (Reader.accept s) (Reader.accept s) := takeIf _

theorem acceptWord (word : Keyword) :
    Shifts k id (Reader.acceptWord word) (Reader.acceptWord word) :=
  takeIf _

theorem expect (s : Symbol) (place : Place) :
    Shifts k id (Reader.expect s place) (Reader.expect s place) := by
  apply current.bind
  intro t
  simp only [id]
  split
  · exact take
  · exact unexpected _ _

theorem expectName (role : NameRole) :
    Shifts k id (Reader.expectName role) (Reader.expectName role) := by
  apply current.bind
  intro t
  simp only [id]
  split
  · exact take
  · exact unexpected _ _

theorem node {build : NodeId → α} {build' : NodeId → β}
    (same : ∀ i, change (build i) = build' (i + k)) :
    Shifts k change (Reader.node build) (Reader.node build') := by
  intro c
  change EStateM.Result.ok (build' (c.nextId + k)) (Cursor.mk c.rest (c.nextId + k + 1)) =
    .ok (change (build c.nextId)) (Cursor.mk c.rest (c.nextId + 1 + k))
  rw [same, Nat.add_right_comm]

theorem repeatUpTo {test : Token → Bool} {step : α → Reader α} {step' : β → Reader β}
    (each : ∀ a, Shifts k change (step a) (step' (change a))) (n : Nat) (a : α) :
    Shifts k change (Reader.repeatUpTo test step n a)
      (Reader.repeatUpTo test step' n (change a)) := by
  induction n generalizing a with
  | zero => exact pure rfl
  | succ n ih =>
    apply current.bind
    intro t
    simp only [id]
    split
    · exact (each a).bind ih
    · exact pure rfl

theorem repeatWhile {test : Token → Bool} {step : α → Reader α} {step' : β → Reader β}
    (each : ∀ a, Shifts k change (step a) (step' (change a))) (a : α) :
    Shifts k change (Reader.repeatWhile test step a) (Reader.repeatWhile test step' (change a)) :=
  fun c => repeatUpTo each c.rest.length a c

theorem many {test : Token → Bool} (item : Shifts k change r r') :
    Shifts k (List.map change) (Reader.many test r) (Reader.many test r') := by
  have step (items : List α) : Shifts k (List.map change)
      (do return (← r) :: items) (do return (← r') :: items.map change) :=
    item.bind fun a => pure rfl
  have loop : Shifts k (List.map change)
      (Reader.repeatWhile test (fun items => do return (← r) :: items) [])
      (Reader.repeatWhile test (fun items => do return (← r') :: items) []) := repeatWhile step []
  apply loop.bind
  intro items
  exact pure List.map_reverse

theorem separated (item : Shifts k change r r') :
    Shifts k (List.map change) (Reader.separated r) (Reader.separated r') := by
  have later : Shifts k change (do let _ ← Reader.take; r) (do let _ ← Reader.take; r') :=
    take.bind fun _ => item
  exact item.bind fun first => later.many.bind fun others => pure rfl

theorem separatedBefore (closing : Symbol) (item : Shifts k change r r') :
    Shifts k (List.map change) (Reader.separatedBefore closing r)
      (Reader.separatedBefore closing r') := by
  apply current.bind
  intro t
  simp only [id]
  split
  · exact pure rfl
  · exact item.separated

theorem optionalBefore (closing : Symbol) (item : Shifts k change r r') :
    Shifts k (Option.map change) (Reader.optionalBefore closing r)
      (Reader.optionalBefore closing r') := by
  apply current.bind
  intro t
  simp only [id]
  split
  · exact pure rfl
  · exact item.bind fun a => pure rfl

theorem foldlM {put : α → γ → Reader α} {put' : β → γ → Reader β}
    (each : ∀ a b, Shifts k change (put a b) (put' (change a) b)) (bs : List γ) (a : α) :
    Shifts k change (bs.foldlM put a) (bs.foldlM put' (change a)) := by
  induction bs generalizing a with
  | nil => exact pure rfl
  | cons b rest ih =>
    simp only [List.foldlM_cons]
    exact (each a b).bind ih

end Shifts

end Reader

namespace Grammar

open Reader (Shifts)
open Reader.Shifts

variable {k : Nat}

abbrev ShiftsExpr (k : Nat) (r : Reader Expr) : Prop := Shifts k (Expr.rename (· + k)) r r

abbrev ShiftsStmt (k : Nat) (r : Reader Stmt) : Prop := Shifts k (Stmt.rename (· + k)) r r

section Expressions

variable {nested : Reader Expr} (inner : ShiftsExpr k nested)

include inner in
theorem shifts_suffix (target : Expr) :
    Shifts k (Expr.rename (· + k)) (suffix nested target)
      (suffix nested (target.rename (· + k))) := by
  apply take.bind
  intro opening
  simp only [id]
  split
  · apply (inner.separatedBefore .rightParen).bind
    intro arguments
    apply (expect _ _).bind
    intro paren
    apply node
    intro i
    rw [Expr.rename, exprsRename_eq_map]
    rfl
  · exact (expectName _).bind fun name => node fun i => rfl

theorem shifts_leaf {build : NodeId → Expr} (same : ∀ i, (build i).rename (· + k) = build (i + k)) :
    ShiftsExpr k (do let _ ← Reader.take; Reader.node build) :=
  take.bind fun _ => node same

include inner in
theorem shifts_primary : ShiftsExpr k (primary nested) := by
  apply current.bind
  intro t
  simp only [id]
  split
  · exact shifts_leaf fun _ => rfl
  · exact shifts_leaf fun _ => rfl
  · exact shifts_leaf fun _ => rfl
  · exact shifts_leaf fun _ => rfl
  · exact shifts_leaf fun _ => rfl
  · apply take.bind
    intro _
    apply (expect _ _).bind
    intro _
    exact (expectName _).bind fun method => node fun i => rfl
  · exact shifts_leaf fun _ => rfl
  · exact shifts_leaf fun _ => rfl
  · apply take.bind
    intro _
    apply inner.bind
    intro e
    exact (expect _ _).bind fun _ => node fun i => rfl
  · exact unexpected _ _

include inner in
theorem shifts_chain : ShiftsExpr k (chain nested) :=
  (shifts_primary inner).bind (repeatWhile (shifts_suffix inner))

include inner in
theorem shifts_unary : ShiftsExpr k (unary nested) := by
  have operators : Shifts k (List.map id) (Reader.many isPrefixOperator Reader.take)
      (Reader.many isPrefixOperator Reader.take) := take.many
  apply operators.bind
  intro before
  apply (shifts_chain inner).bind
  intro operand
  rw [List.map_id]
  exact foldlM (fun right operator => node fun i => rfl) before.reverse operand

theorem tiers_shift : ∀ tier ∈ tiers, ∀ i left operator right,
    (tier.build i left operator right).rename (· + k) =
      tier.build (i + k) (left.rename (· + k)) operator (right.rename (· + k)) := by
  intro tier member i left operator right
  simp only [tiers, List.mem_cons, List.not_mem_nil, or_false] at member
  rcases member with rfl | rfl | rfl | rfl | rfl | rfl <;> rfl

theorem shifts_operatorsOver {operand : Reader Expr} (each : ShiftsExpr k operand) :
    ShiftsExpr k (operatorsOver operand) := by
  unfold operatorsOver
  have all := tiers_shift (k := k)
  generalize tiers = below at all ⊢
  induction below with
  | nil => exact each
  | cons tier rest ih =>
    have tighter : ShiftsExpr k (rest.foldr leftToRight operand) :=
      ih fun other member => all other (List.mem_cons_of_mem _ member)
    apply tighter.bind
    apply repeatWhile
    intro left
    apply take.bind
    intro operator
    exact tighter.bind fun right => node fun i => all tier List.mem_cons_self i left operator right

include inner in
theorem shifts_assignment : ShiftsExpr k (assignment nested) := by
  apply (shifts_operatorsOver (shifts_unary inner)).bind
  intro target
  apply current.bind
  intro t
  simp only [id]
  split
  · apply take.bind
    intro _
    apply inner.bind
    intro value
    cases target with
    | read use => exact node fun i => rfl
    | get _ object name => exact node fun i => rfl
    | _ => exact unexpected _ _
  · exact pure rfl

end Expressions

theorem shifts_expressionWithin (n : Nat) : ShiftsExpr k fun c => expressionWithin n c := by
  induction n with
  | zero => exact fun _ => rfl
  | succ n ih => exact shifts_assignment ih

theorem shifts_expression : ShiftsExpr k expression :=
  fun c => shifts_expressionWithin (c.rest.length + 1) c

theorem shifts_expressionStatement : ShiftsStmt k expressionStatement :=
  shifts_expression.bind fun _ => (expect _ _).bind fun _ => node fun _ => rfl

theorem shifts_varDeclaration : ShiftsStmt k varDeclaration := by
  have ending (name : Token) (value : Option Expr) :
      Shifts k (Stmt.rename (· + k))
        (do let _ ← Reader.expect .semicolon .afterVariable; Reader.node (.var · name value))
        (do
          let _ ← Reader.expect .semicolon .afterVariable
          Reader.node (.var · name (value.map (·.rename (· + k))))) :=
    (expect _ _).bind fun _ => node fun i => rfl
  apply (expectName _).bind
  intro name
  apply (accept _).bind
  intro given
  simp only [id]
  split
  · have value : Shifts k (Option.map (Expr.rename (· + k))) (some <$> expression)
        (some <$> expression) := shifts_expression.map fun _ => rfl
    exact value.bind (ending name)
  · exact ending name none

section Nested

variable {declaration statement : Reader Stmt} (declarations : ShiftsStmt k declaration)
  (statements : ShiftsStmt k statement)

include declarations in
theorem shifts_block :
    Shifts k (stmtsRename (· + k)) (block declaration) (block declaration) := by
  apply declarations.many.bind
  intro body
  apply (expect _ _).bind
  intro _
  exact pure (stmtsRename_eq_map _ body)

include declarations in
theorem shifts_function (sort : FunctionSort) :
    Shifts k (FunctionDecl.rename (· + k)) (function declaration sort)
      (function declaration sort) := by
  apply (expectName _).bind
  intro name
  apply (expect _ _).bind
  intro _
  have params : Shifts k (List.map id)
      (Reader.separatedBefore .rightParen (Reader.expectName .parameter))
      (Reader.separatedBefore .rightParen (Reader.expectName .parameter)) :=
    (expectName _).separatedBefore .rightParen
  apply params.bind
  intro params
  rw [List.map_id]
  apply (expect _ _).bind
  intro _
  apply (expect _ _).bind
  intro _
  exact (shifts_block declarations).bind fun body => node fun i => rfl

include declarations in
theorem shifts_classBody (name : Token) (superclass : Option Variable) :
    Shifts k (Stmt.rename (· + k))
      (do
        let _ ← Reader.expect .leftBrace .beforeClassBody
        let methods ←
          Reader.many (fun t => !t.isSymbol .rightBrace && !t.isEnding)
            (function declaration .method)
        let _ ← Reader.expect .rightBrace .afterClassBody
        Reader.node (.classDecl · name superclass methods))
      (do
        let _ ← Reader.expect .leftBrace .beforeClassBody
        let methods ←
          Reader.many (fun t => !t.isSymbol .rightBrace && !t.isEnding)
            (function declaration .method)
        let _ ← Reader.expect .rightBrace .afterClassBody
        Reader.node (.classDecl · name (superclass.map (·.rename (· + k))) methods)) := by
  apply (expect _ _).bind
  intro _
  apply (shifts_function declarations .method).many.bind
  intro methods
  apply (expect _ _).bind
  intro _
  apply node
  intro i
  rw [Stmt.rename, methodsRename_eq_map]

include declarations in
theorem shifts_classDeclaration : ShiftsStmt k (classDeclaration declaration) := by
  apply (expectName _).bind
  intro name
  apply (accept _).bind
  intro given
  simp only [id]
  split
  · apply (expectName _).bind
    intro superName
    have use : Shifts k (Variable.rename (· + k)) (Reader.node (Variable.mk · superName))
        (Reader.node (Variable.mk · superName)) := node fun i => rfl
    have superclass : Shifts k (Option.map (Variable.rename (· + k)))
        (some <$> Reader.node (Variable.mk · superName))
        (some <$> Reader.node (Variable.mk · superName)) := use.map fun _ => rfl
    exact superclass.bind (shifts_classBody declarations name)
  · exact shifts_classBody declarations name none

theorem shifts_forInitializer :
    Shifts k (Option.map (Stmt.rename (· + k))) forInitializer forInitializer := by
  apply (accept _).bind
  intro absent
  simp only [id]
  split
  · exact pure rfl
  · apply (acceptWord _).bind
    intro declares
    simp only [id]
    split
    · exact shifts_varDeclaration.map fun _ => rfl
    · exact shifts_expressionStatement.map fun _ => rfl

theorem shifts_loop (initializer : Option Stmt) (condition : Expr) (body : Stmt) :
    Shifts k (Stmt.rename (· + k))
      (do
        let loop ← Reader.node (.loop · condition body)
        match initializer with
        | none => return loop
        | some s => Reader.node (.block · [s, loop]))
      (do
        let loop ← Reader.node (.loop · (condition.rename (· + k)) (body.rename (· + k)))
        match initializer.map (·.rename (· + k)) with
        | none => return loop
        | some s => Reader.node (.block · [s, loop])) := by
  have made : Shifts k (Stmt.rename (· + k)) (Reader.node (.loop · condition body))
      (Reader.node (.loop · (condition.rename (· + k)) (body.rename (· + k)))) := node fun i => rfl
  apply made.bind
  intro loop
  cases initializer with
  | none => exact pure rfl
  | some s => exact node fun i => rfl

theorem shifts_forLoopOf (initializer : Option Stmt) (condition increment : Option Expr)
    (body : Stmt) :
    Shifts k (Stmt.rename (· + k)) (forLoopOf initializer condition increment body)
      (forLoopOf (initializer.map (·.rename (· + k))) (condition.map (·.rename (· + k)))
        (increment.map (·.rename (· + k))) (body.rename (· + k))) := by
  have rest (body : Stmt) :
      Shifts k (Stmt.rename (· + k)) (forLoopOf initializer condition none body)
        (forLoopOf (initializer.map (·.rename (· + k))) (condition.map (·.rename (· + k))) none
          (body.rename (· + k))) := by
    cases condition with
    | some e => exact shifts_loop initializer e body
    | none =>
      have always : Shifts k (Expr.rename (· + k)) (Reader.node (.literal · (.bool true)))
          (Reader.node (.literal · (.bool true))) := node fun i => rfl
      unfold forLoopOf
      simp only [pure_bind, Option.map_none]
      exact always.bind fun e => shifts_loop initializer e body
  cases increment with
  | none => exact rest body
  | some e =>
    have step : Shifts k (Stmt.rename (· + k)) (Reader.node (.expression · e))
        (Reader.node (.expression · (e.rename (· + k)))) := node fun i => rfl
    have both (step : Stmt) : Shifts k (Stmt.rename (· + k)) (Reader.node (.block · [body, step]))
        (Reader.node (.block · [body.rename (· + k), step.rename (· + k)])) := node fun i => rfl
    exact step.bind fun step => (both step).bind rest

include statements in
theorem shifts_forLoop : ShiftsStmt k (forLoop statement) := by
  apply (expect _ _).bind
  intro _
  apply shifts_forInitializer.bind
  intro initializer
  apply (shifts_expression.optionalBefore _).bind
  intro condition
  apply (expect _ _).bind
  intro _
  apply (shifts_expression.optionalBefore _).bind
  intro increment
  apply (expect _ _).bind
  intro _
  exact statements.bind (shifts_forLoopOf initializer condition increment)

include statements in
theorem shifts_conditional : ShiftsStmt k (conditional statement) := by
  apply (expect _ _).bind
  intro _
  apply shifts_expression.bind
  intro condition
  apply (expect _ _).bind
  intro _
  apply statements.bind
  intro yes
  apply (acceptWord _).bind
  intro given
  simp only [id]
  split
  · have no : Shifts k (Option.map (Stmt.rename (· + k))) (some <$> statement)
        (some <$> statement) := statements.map fun _ => rfl
    apply no.bind
    intro no
    apply node
    intro i
    cases no <;> rfl
  · simp only [pure_bind]
    exact node fun i => rfl

include statements in
theorem shifts_whileLoop : ShiftsStmt k (whileLoop statement) := by
  apply (expect _ _).bind
  intro _
  apply shifts_expression.bind
  intro condition
  apply (expect _ _).bind
  intro _
  exact statements.bind fun body => node fun i => rfl

theorem shifts_printStatement : ShiftsStmt k printStatement :=
  shifts_expression.bind fun _ => (expect _ _).bind fun _ => node fun _ => rfl

theorem shifts_returnStatement (keyword : Token) : ShiftsStmt k (returnStatement keyword) :=
  (shifts_expression.optionalBefore _).bind fun _ => (expect _ _).bind fun _ => node fun _ => rfl

include declarations statements in
theorem shifts_statementOver : ShiftsStmt k (statementOver declaration statement) := by
  apply current.bind
  intro t
  simp only [id]
  split
  · exact take.bind fun _ => shifts_forLoop statements
  · exact take.bind fun _ => shifts_conditional statements
  · exact take.bind fun _ => shifts_printStatement
  · exact take.bind fun _ => shifts_returnStatement t
  · exact take.bind fun _ => shifts_whileLoop statements
  · apply take.bind
    intro _
    exact (shifts_block declarations).bind fun body => node fun i => rfl
  · exact shifts_expressionStatement

include declarations statements in
theorem shifts_declarationOver : ShiftsStmt k (declarationOver declaration statement) := by
  apply current.bind
  intro t
  simp only [id]
  split
  · exact take.bind fun _ => shifts_classDeclaration declarations
  · exact take.bind fun _ => (shifts_function declarations .function).map fun _ => rfl
  · exact take.bind fun _ => shifts_varDeclaration
  · exact shifts_statementOver declarations statements

end Nested

theorem shifts_within (n : Nat) :
    ShiftsStmt k (fun c => declarationWithin n c) ∧
      ShiftsStmt k (fun c => statementWithin n c) := by
  induction n with
  | zero => exact ⟨fun _ => rfl, fun _ => rfl⟩
  | succ n ih => exact ⟨shifts_declarationOver ih.1 ih.2, shifts_statementOver ih.1 ih.2⟩

theorem shifts_declaration : ShiftsStmt k declaration :=
  fun c => (shifts_within (c.rest.length + 1)).1 c

theorem shifts_program : Shifts k (stmtsRename (· + k)) program program := by
  have same : stmtsRename (· + k) = List.map (Stmt.rename (· + k)) := funext (stmtsRename_eq_map _)
  rw [same]
  exact shifts_declaration.many

end Grammar

/-- With a larger first number the same tokens give the same error, or the same program with larger
numbers, and the reading stops at the same place. -/
theorem parse_shift (k : Nat) (firstId : NodeId) (tokens : List Token) :
    parse (firstId + k) tokens =
      ((parse firstId tokens).1.map (stmtsRename (· + k)), (parse firstId tokens).2.shift k) := by
  have reading := Grammar.shifts_program (k := k) ⟨tokens, firstId⟩
  unfold parse
  change Grammar.program ⟨tokens, firstId + k⟩ = _ at reading
  rw [reading]
  cases Grammar.program ⟨tokens, firstId⟩ <;> rfl

end LoxMachine
