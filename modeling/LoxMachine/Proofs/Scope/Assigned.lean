import LoxMachine.Proofs.Program.Declarations
import LoxMachine.Proofs.Scope.Violations

namespace LoxMachine

open Static

mutual

/-- The names that are assigned in a statement, or in one inside. -/
def Stmt.assigned : Stmt → List Token
  | .expression _ e | .print _ e => e.assigned
  | .var _ _ none | .returns _ _ none => []
  | .var _ _ (some e) | .returns _ _ (some e) => e.assigned
  | .block _ body => stmtsAssigned body
  | .branch _ condition yes none => condition.assigned ++ yes.assigned
  | .branch _ condition yes (some no) => condition.assigned ++ (yes.assigned ++ no.assigned)
  | .loop _ condition body => condition.assigned ++ body.assigned
  | .function decl => decl.assigned
  | .classDecl _ _ _ methods => methodsAssigned methods

def stmtsAssigned : List Stmt → List Token
  | [] => []
  | s :: rest => s.assigned ++ stmtsAssigned rest

def FunctionDecl.assigned : FunctionDecl → List Token
  | .mk _ _ _ body => stmtsAssigned body

def methodsAssigned : List FunctionDecl → List Token
  | [] => []
  | m :: rest => m.assigned ++ methodsAssigned rest

end

theorem stmtsAssigned_eq (body : List Stmt) : stmtsAssigned body = body.flatMap Stmt.assigned := by
  induction body with
  | nil => rfl
  | cons s rest ih => rw [stmtsAssigned, List.flatMap_cons, ih]

theorem methodsAssigned_eq (methods : List FunctionDecl) :
    methodsAssigned methods = methods.flatMap FunctionDecl.assigned := by
  induction methods with
  | nil => rfl
  | cons m rest ih => rw [methodsAssigned, List.flatMap_cons, ih]

theorem exprsAssigned_eq (es : List Expr) : exprsAssigned es = es.flatMap Expr.assigned := by
  induction es with
  | nil => rfl
  | cons e rest ih => rw [exprsAssigned, List.flatMap_cons, ih]

theorem mem_stmtsAssigned {body : List Stmt} {s : Stmt} (member : s ∈ body) {token : Token}
    (assigned : token ∈ s.assigned) : token ∈ stmtsAssigned body := by
  rw [stmtsAssigned_eq]
  exact List.mem_flatMap_of_mem member assigned

theorem FunctionDecl.mem_assigned {decl : FunctionDecl} {s : Stmt} (member : s ∈ decl.body)
    {token : Token} (assigned : token ∈ s.assigned) : token ∈ decl.assigned := by
  obtain ⟨id, name, params, body⟩ := decl
  exact mem_stmtsAssigned member assigned

theorem mem_assigned_of_part {e part : Expr} (member : part ∈ e.parts) {token : Token}
    (assigned : token ∈ part.assigned) : token ∈ e.assigned := by
  cases e with
  | literal _ _ | read _ | this _ _ | super _ _ _ => cases member
  | assign id name inner =>
    cases List.mem_singleton.mp member
    exact List.mem_cons_of_mem _ assigned
  | unary _ _ inner | grouping _ inner | get _ inner _ =>
    cases List.mem_singleton.mp member
    exact assigned
  | binary _ left _ right | logical _ left _ right =>
    rw [Expr.assigned, List.mem_append]
    rcases List.mem_cons.mp member with rfl | other
    · exact .inl assigned
    · exact .inr (List.mem_singleton.mp other ▸ assigned)
  | call _ callee _ arguments =>
    rw [Expr.assigned, List.mem_append]
    rcases List.mem_cons.mp member with rfl | other
    · exact .inl assigned
    · rw [exprsAssigned_eq]
      exact .inr (List.mem_flatMap_of_mem other assigned)
  | set _ object _ value =>
    rw [Expr.assigned, List.mem_append]
    rcases List.mem_cons.mp member with rfl | other
    · exact .inr assigned
    · exact .inl (List.mem_singleton.mp other ▸ assigned)

theorem mem_assigned_of_contains {e inner : Expr} (contains : e.Contains inner) {token : Token}
    (assigned : token ∈ inner.assigned) : token ∈ e.assigned := by
  induction contains with
  | itself e => exact assigned
  | inside member deeper ih => exact mem_assigned_of_part member (ih assigned)

theorem mem_assigned_of_own {s : Stmt} {e : Expr} (own : e ∈ s.exprs) {token : Token}
    (assigned : token ∈ e.assigned) : token ∈ s.assigned := by
  cases s with
  | expression _ e | print _ e =>
    cases List.mem_singleton.mp own
    exact assigned
  | branch _ condition yes no =>
    cases List.mem_singleton.mp own
    cases no <;> exact List.mem_append_left _ assigned
  | loop _ condition body =>
    cases List.mem_singleton.mp own
    exact List.mem_append_left _ assigned
  | var _ _ value | returns _ _ value =>
    cases value with
    | none => cases own
    | some e =>
      cases List.mem_singleton.mp own
      exact assigned
  | block _ _ | function _ | classDecl _ _ _ _ => cases own

theorem mem_assigned_of_stands {program : List Stmt} {around : List Enclosure} {s : Stmt}
    (stands : Stands program around s) {token : Token} (assigned : token ∈ s.assigned) :
    token ∈ stmtsAssigned program := by
  induction stands with
  | top member => exact mem_stmtsAssigned member assigned
  | block _ member ih => exact ih (mem_stmtsAssigned member assigned)
  | @yes _ _ _ _ no _ ih =>
    apply ih
    cases no with
    | none => exact List.mem_append_right _ assigned
    | some no => exact List.mem_append_right _ (List.mem_append_left _ assigned)
  | no _ ih => exact ih (List.mem_append_right _ (List.mem_append_right _ assigned))
  | loop _ ih => exact ih (List.mem_append_right _ assigned)
  | function _ member ih => exact ih (FunctionDecl.mem_assigned member assigned)
  | method _ which member ih =>
    apply ih
    rw [Stmt.assigned, methodsAssigned_eq]
    exact List.mem_flatMap_of_mem which (FunctionDecl.mem_assigned member assigned)

theorem mem_assigned_of_evaluates {program : List Stmt} {around : List Enclosure} {id : NodeId}
    {token : Token} {value : Expr} (evaluates : Evaluates program around (.assign id token value)) :
    token ∈ stmtsAssigned program := by
  obtain ⟨s, stands, e, own, contains⟩ := evaluates
  have here : token ∈ (Expr.assign id token value).assigned := List.mem_cons_self
  exact mem_assigned_of_stands stands
    (mem_assigned_of_own own (mem_assigned_of_contains contains here))

end LoxMachine
