import LoxMachine.Proofs.Scope.Violations
import Mathlib.Data.List.Nodup

namespace LoxMachine

def Stmt.callables : Stmt → List FunctionDecl
  | .function decl => [decl]
  | .classDecl _ _ _ methods => methods
  | .expression _ _ | .print _ _ | .var _ _ _ | .block _ _ | .branch _ _ _ _ | .loop _ _ _
  | .returns _ _ _ => []

mutual

/-- The functions in a statement, at whatever depth, each with the statement that declares it. -/
def Stmt.functions : Stmt → List (FunctionDecl × Stmt)
  | .block _ body => stmtsFunctions body
  | .branch _ _ yes none => yes.functions
  | .branch _ _ yes (some no) => yes.functions ++ no.functions
  | .loop _ _ body => body.functions
  | .function decl => (decl, .function decl) :: decl.functions
  | .classDecl id name superclass methods =>
    methods.map (·, .classDecl id name superclass methods) ++ methodsFunctions methods
  | .expression _ _ | .print _ _ | .var _ _ _ | .returns _ _ _ => []

def stmtsFunctions : List Stmt → List (FunctionDecl × Stmt)
  | [] => []
  | s :: rest => s.functions ++ stmtsFunctions rest

def FunctionDecl.functions : FunctionDecl → List (FunctionDecl × Stmt)
  | .mk _ _ _ body => stmtsFunctions body

def methodsFunctions : List FunctionDecl → List (FunctionDecl × Stmt)
  | [] => []
  | m :: rest => m.functions ++ methodsFunctions rest

end

def functionIds (functions : List (FunctionDecl × Stmt)) : List NodeId := functions.map (·.1.id)

theorem functionIds_append (first second : List (FunctionDecl × Stmt)) :
    functionIds (first ++ second) = functionIds first ++ functionIds second := List.map_append

mutual

theorem count_functions_stmt (i : NodeId) (s : Stmt) :
    (functionIds s.functions).count i ≤ s.ids.count i := by
  match s with
  | .expression _ _ | .print _ _ | .var _ _ _ | .returns _ _ _ => exact Nat.zero_le _
  | .block id body =>
    have inner := count_functions_stmts i body
    simp only [Stmt.functions, Stmt.ids, List.count_append]
    omega
  | .branch id condition yes none =>
    have inner := count_functions_stmt i yes
    simp only [Stmt.functions, Stmt.ids, List.count_append]
    omega
  | .branch id condition yes (some no) =>
    have first := count_functions_stmt i yes
    have second := count_functions_stmt i no
    simp only [Stmt.functions, Stmt.ids, functionIds_append, List.count_append]
    omega
  | .loop id condition body =>
    have inner := count_functions_stmt i body
    simp only [Stmt.functions, Stmt.ids, List.count_append]
    omega
  | .function decl => exact count_functions_function i decl
  | .classDecl id name superclass methods =>
    have inner := count_functions_methods i methods
    have own : functionIds (methods.map (·, .classDecl id name superclass methods)) =
        methods.map (·.id) := by
      rw [functionIds, List.map_map]
      rfl
    simp only [Stmt.functions, Stmt.ids, functionIds_append, List.count_append, own]
    omega

theorem count_functions_stmts (i : NodeId) (body : List Stmt) :
    (functionIds (stmtsFunctions body)).count i ≤ (stmtsIds body).count i := by
  match body with
  | [] => exact Nat.le_refl _
  | s :: rest =>
    have first := count_functions_stmt i s
    have others := count_functions_stmts i rest
    simp only [stmtsFunctions, stmtsIds, functionIds_append, List.count_append]
    omega

theorem count_functions_function (i : NodeId) (decl : FunctionDecl) :
    (decl.id :: functionIds decl.functions).count i ≤ decl.ids.count i := by
  match decl with
  | .mk id name params body =>
    have inner := count_functions_stmts i body
    simp only [FunctionDecl.id, FunctionDecl.functions, FunctionDecl.ids, List.count_append,
      List.count_cons, List.count_nil]
    omega

theorem count_functions_methods (i : NodeId) (methods : List FunctionDecl) :
    (methods.map (·.id)).count i + (functionIds (methodsFunctions methods)).count i ≤
      (methodsIds methods).count i := by
  match methods with
  | [] => exact Nat.le_refl _
  | m :: rest =>
    have first := count_functions_function i m
    have others := count_functions_methods i rest
    simp only [methodsFunctions, methodsIds, functionIds_append, List.count_append, List.map_cons,
      List.count_cons] at first ⊢
    omega

end

theorem function_unique {lo hi : Nat} {program : List Stmt}
    (numbered : Numbered lo hi (stmtsIds program)) {one other : FunctionDecl × Stmt}
    (here : one ∈ stmtsFunctions program) (there : other ∈ stmtsFunctions program)
    (same : one.1.id = other.1.id) : one = other :=
  List.inj_on_of_nodup_map (numbered.part fun i => count_functions_stmts i program).2.1 here there
    same

theorem functions_subset_stmts {body : List Stmt} {s : Stmt} (member : s ∈ body) :
    s.functions ⊆ stmtsFunctions body := by
  induction body with
  | nil => cases member
  | cons first rest ih =>
    rcases List.mem_cons.mp member with rfl | later
    · exact List.subset_append_left _ _
    · exact List.subset_append_of_subset_right _ (ih later)

theorem functions_subset_methods {methods : List FunctionDecl} {m : FunctionDecl}
    (which : m ∈ methods) : m.functions ⊆ methodsFunctions methods := by
  induction methods with
  | nil => cases which
  | cons first rest ih =>
    rcases List.mem_cons.mp which with rfl | later
    · exact List.subset_append_left _ _
    · exact List.subset_append_of_subset_right _ (ih later)

theorem functions_subset_body {decl : FunctionDecl} {s : Stmt} (member : s ∈ decl.body) :
    s.functions ⊆ decl.functions := by
  cases decl
  exact functions_subset_stmts member

theorem functions_of_stands {program : List Stmt} {around : List Enclosure} {s : Stmt}
    (stands : Stands program around s) : s.functions ⊆ stmtsFunctions program := by
  induction stands with
  | top member => exact functions_subset_stmts member
  | block _ member ih => exact List.Subset.trans (functions_subset_stmts member) ih
  | @yes _ _ _ yes no _ ih =>
    cases no with
    | none => exact ih
    | some no => exact List.Subset.trans (List.subset_append_left _ _) ih
  | no _ ih => exact List.Subset.trans (List.subset_append_right _ _) ih
  | loop _ ih => exact ih
  | function _ member ih =>
    exact List.Subset.trans (functions_subset_body member)
      (List.Subset.trans (List.subset_cons_self _ _) ih)
  | method _ which member ih =>
    have inner := List.Subset.trans (functions_subset_body member) (functions_subset_methods which)
    exact List.Subset.trans inner (List.Subset.trans (List.subset_append_right _ _) ih)

theorem mem_functions {program : List Stmt} {around : List Enclosure} {s : Stmt}
    {decl : FunctionDecl} (stands : Stands program around s) (declares : decl ∈ s.callables) :
    (decl, s) ∈ stmtsFunctions program := by
  apply functions_of_stands stands
  cases s with
  | function own =>
    cases List.mem_singleton.mp declares
    exact List.mem_cons_self
  | classDecl id name superclass methods =>
    exact List.mem_append_left _ (List.mem_map_of_mem declares)
  | _ => cases declares

end LoxMachine
