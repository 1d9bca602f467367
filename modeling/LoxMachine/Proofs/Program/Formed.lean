import LoxMachine.Program.Basic

namespace LoxMachine

def Token.Ordinary (t : Token) : Prop := t.lexeme ≠ "this" ∧ t.lexeme ≠ "super"

/-- The names that a statement adds to the scope it stands in. -/
def Stmt.declared : Stmt → List Token
  | .var _ name _ | .classDecl _ name _ _ => [name]
  | .function decl => [decl.name]
  | .branch _ _ yes none => yes.declared
  | .branch _ _ yes (some no) => yes.declared ++ no.declared
  | .loop _ _ body => body.declared
  | .expression _ _ | .print _ _ | .block _ _ | .returns _ _ _ => []

def namesOf (body : List Stmt) : List String := (body.flatMap Stmt.declared).map (·.lexeme)

mutual

/-- The numbers of the nodes of an expression. -/
def Expr.ids : Expr → List NodeId
  | .literal id _ | .this id _ | .super id _ _ => [id]
  | .read use => [use.id]
  | .assign id _ inner | .unary id _ inner | .grouping id inner | .get id inner _ =>
    inner.ids ++ [id]
  | .binary id left _ right | .logical id left _ right => left.ids ++ right.ids ++ [id]
  | .call id callee _ arguments => callee.ids ++ exprsIds arguments ++ [id]
  | .set id object _ value => value.ids ++ object.ids ++ [id]

def exprsIds : List Expr → List NodeId
  | [] => []
  | e :: rest => e.ids ++ exprsIds rest

end

def optionalIds : Option Expr → List NodeId
  | none => []
  | some e => e.ids

mutual

/-- The numbers of the nodes of a statement. -/
def Stmt.ids : Stmt → List NodeId
  | .expression id e | .print id e => e.ids ++ [id]
  | .var id _ value | .returns id _ value => optionalIds value ++ [id]
  | .block id body => stmtsIds body ++ [id]
  | .branch id condition yes none => condition.ids ++ yes.ids ++ [id]
  | .branch id condition yes (some no) => condition.ids ++ yes.ids ++ no.ids ++ [id]
  | .loop id condition body => condition.ids ++ body.ids ++ [id]
  | .function decl => decl.ids
  | .classDecl id _ superclass methods =>
    (superclass.map (·.id)).toList ++ methodsIds methods ++ [id]

def stmtsIds : List Stmt → List NodeId
  | [] => []
  | s :: rest => s.ids ++ stmtsIds rest

def FunctionDecl.ids : FunctionDecl → List NodeId
  | .mk id _ _ body => stmtsIds body ++ [id]

def methodsIds : List FunctionDecl → List NodeId
  | [] => []
  | m :: rest => m.ids ++ methodsIds rest

end

def Numbered (lo hi : Nat) (ids : List Nat) : Prop :=
  lo ≤ hi ∧ ids.Nodup ∧ ∀ i ∈ ids, lo ≤ i ∧ i < hi

namespace Numbered

variable {lo mid hi : Nat} {first second : List Nat}

theorem nil (below : lo ≤ hi) : Numbered lo hi [] := ⟨below, List.nodup_nil, by simp⟩

theorem single (id : Nat) : Numbered id (id + 1) [id] := by
  refine ⟨Nat.le_succ id, List.nodup_cons.mpr ⟨List.not_mem_nil, List.nodup_nil⟩, ?_⟩
  intro i member
  have same := List.mem_singleton.mp member
  omega

theorem append (left : Numbered lo mid first) (right : Numbered mid hi second) :
    Numbered lo hi (first ++ second) := by
  refine ⟨Nat.le_trans left.1 right.1, List.nodup_append.mpr ⟨left.2.1, right.2.1, ?_⟩, ?_⟩
  · intro i one j other
    have low := (left.2.2 i one).2
    have high := (right.2.2 j other).1
    omega
  · intro i member
    have below := left.1
    have above := right.1
    rcases List.mem_append.mp member with one | other
    · have bounds := left.2.2 i one
      omega
    · have bounds := right.2.2 i other
      omega

theorem node {id : Nat} (parts : Numbered lo id first) : Numbered lo (id + 1) (first ++ [id]) :=
  parts.append (single id)

theorem perm (numbered : Numbered lo hi first) (same : first.Perm second) :
    Numbered lo hi second :=
  ⟨numbered.1, same.nodup_iff.mp numbered.2.1, fun i member => numbered.2.2 i (same.mem_iff.mpr member)⟩

theorem part (numbered : Numbered lo hi first) (fewer : ∀ i, second.count i ≤ first.count i) :
    Numbered lo hi second := by
  refine ⟨numbered.1, List.nodup_iff_count.mpr fun i => ?_, fun i member => ?_⟩
  · exact Nat.le_trans (fewer i) (List.nodup_iff_count.mp numbered.2.1 i)
  · have counted := List.count_pos_iff.mpr member
    exact numbered.2.2 i (List.count_pos_iff.mp (Nat.lt_of_lt_of_le counted (fewer i)))

theorem sublist (numbered : Numbered lo hi first) (within : second.Sublist first) :
    Numbered lo hi second :=
  numbered.part within.count_le

end Numbered

mutual

/-- An expression whose names are no reserved words. -/
def Expr.Formed : Expr → Prop
  | .literal _ _ => True
  | .read use => use.name.Ordinary
  | .assign _ name value => value.Formed ∧ name.Ordinary
  | .unary _ _ inner | .grouping _ inner | .get _ inner _ => inner.Formed
  | .binary _ left _ right | .logical _ left _ right => left.Formed ∧ right.Formed
  | .call _ callee _ arguments => callee.Formed ∧ ExprsFormed arguments
  | .set _ object _ value => object.Formed ∧ value.Formed
  | .this _ keyword => keyword.lexeme = "this"
  | .super _ keyword _ => keyword.lexeme = "super"

def ExprsFormed : List Expr → Prop
  | [] => True
  | e :: rest => e.Formed ∧ ExprsFormed rest

end

def OptionalFormed : Option Expr → Prop
  | none => True
  | some e => e.Formed

def HeritageFormed : Option Variable → Prop
  | none => True
  | some use => use.name.Ordinary

mutual

/-- A statement whose names are no reserved words and whose branches declare nothing. -/
def Stmt.Formed : Stmt → Prop
  | .expression _ e | .print _ e => e.Formed
  | .var _ name initializer => OptionalFormed initializer ∧ name.Ordinary
  | .block _ body => StmtsFormed body
  | .branch _ condition yes none => condition.Formed ∧ yes.Formed ∧ yes.declared = []
  | .branch _ condition yes (some no) =>
    condition.Formed ∧ (yes.Formed ∧ yes.declared = []) ∧ no.Formed ∧ no.declared = []
  | .loop _ condition body => condition.Formed ∧ body.Formed ∧ body.declared = []
  | .function decl => decl.Formed
  | .returns _ _ value => OptionalFormed value
  | .classDecl _ name superclass methods =>
    HeritageFormed superclass ∧ MethodsFormed methods ∧ name.Ordinary

def StmtsFormed : List Stmt → Prop
  | [] => True
  | s :: rest => s.Formed ∧ StmtsFormed rest

def FunctionDecl.Formed : FunctionDecl → Prop
  | .mk _ name params body => StmtsFormed body ∧ name.Ordinary ∧ ∀ param ∈ params, param.Ordinary

def MethodsFormed : List FunctionDecl → Prop
  | [] => True
  | m :: rest => m.Formed ∧ MethodsFormed rest

end

end LoxMachine
