import LoxMachine.Proofs.Scope.Pass

namespace LoxMachine.Static

def Origin.id? : Origin → Option NodeId
  | block id _ | function id _ => some id
  | global | receiver | heritage => none

/-- The number of the node that an occurrence stands for, no other occurrence standing for it. -/
def Occurrence.node? : Occurrence → Option NodeId
  | use id _ _ | «variable» id _ _ => some id
  | scope origin => origin.id?
  | parameter _ _ _ | callable _ _ | mark _ _ => none

/-- The numbers of the nodes that occurrences stand for. -/
def nodeIds (occurrences : List Occurrence) : List NodeId := occurrences.filterMap Occurrence.node?

theorem nodeIds_append (first second : List Occurrence) :
    nodeIds (first ++ second) = nodeIds first ++ nodeIds second := List.filterMap_append

theorem mem_nodeIds {occurrences : List Occurrence} {o : Occurrence} {id : NodeId}
    (member : o ∈ occurrences) (node : o.node? = some id) : id ∈ nodeIds occurrences :=
  List.mem_filterMap.mpr ⟨o, member, node⟩

def Resolves (ds : Distances) (G : Occurrence → Prop) : Prop :=
  ∀ id name levels, G (.use id name levels) →
    ds.lookup id = (locate levels name.lexeme).map Int.ofNat

mutual

theorem nodeIds_expr (levels : List Level) (e : Expr) :
    (nodeIds (e.occurrences levels)).Sublist e.ids := by
  match e with
  | .literal _ _ => exact List.nil_sublist _
  | .read _ => exact List.Sublist.refl _
  | .assign id name value =>
    rw [Expr.occurrences, nodeIds_append]
    exact (nodeIds_expr levels value).append (List.Sublist.refl _)
  | .unary id operator right =>
    exact (nodeIds_expr levels right).trans (List.sublist_append_left _ _)
  | .binary id left operator right | .logical id left operator right =>
    have both := (nodeIds_expr levels left).append (nodeIds_expr levels right)
    rw [← nodeIds_append] at both
    exact both.trans (List.sublist_append_left _ _)
  | .grouping _ inner => exact (nodeIds_expr levels inner).trans (List.sublist_append_left _ _)
  | .call id callee paren arguments =>
    have both := (nodeIds_expr levels callee).append (nodeIds_exprs levels arguments)
    rw [← nodeIds_append] at both
    exact both.trans (List.sublist_append_left _ _)
  | .get id object name => exact (nodeIds_expr levels object).trans (List.sublist_append_left _ _)
  | .set id object name value =>
    have both := (nodeIds_expr levels value).append (nodeIds_expr levels object)
    rw [← nodeIds_append] at both
    exact both.trans (List.sublist_append_left _ _)
  | .this _ _ => exact List.Sublist.refl _
  | .super _ _ _ => exact List.Sublist.refl _

theorem nodeIds_exprs (levels : List Level) (es : List Expr) :
    (nodeIds (exprsOccurrences levels es)).Sublist (exprsIds es) := by
  match es with
  | [] => exact List.Sublist.refl _
  | e :: rest =>
    rw [exprsOccurrences, nodeIds_append]
    exact (nodeIds_expr levels e).append (nodeIds_exprs levels rest)

end

theorem nodeIds_optional (levels : List Level) (e : Option Expr) :
    (nodeIds (optionalOccurrences levels e)).Sublist (optionalIds e) := by
  cases e with
  | none => exact List.Sublist.refl _
  | some e => exact nodeIds_expr levels e

theorem nodeIds_heritage (levels : List Level) (superclass : Option Variable) :
    (nodeIds (heritageOccurrences levels superclass)).Sublist
      (superclass.map (·.id)).toList := by
  cases superclass <;> exact List.Sublist.refl _

theorem nodeIds_parameters (id : NodeId) (params : List Token) (levels : List Level) :
    nodeIds (params.map (.parameter id · levels)) = [] := by
  simp [nodeIds, List.filterMap_map, Occurrence.node?]

theorem count_nodeIds_cons {o : Occurrence} {id : NodeId} (rest : List Occurrence) (i : NodeId)
    (node : o.node? = some id) :
    (nodeIds (o :: rest)).count i = (nodeIds rest).count i + [id].count i := by
  rw [nodeIds, List.filterMap_cons_some node, List.count_cons, List.count_singleton]
  rfl

theorem nodeIds_cons_none {o : Occurrence} (rest : List Occurrence) (node : o.node? = none) :
    nodeIds (o :: rest) = nodeIds rest :=
  List.filterMap_cons_none node

mutual

/-- Every node of a statement is stood for at most once. The order is another one: a scope comes
upon before what is in it has the number of a node after it. -/
theorem count_stmt (levels : List Level) (i : NodeId) (s : Stmt) :
    (nodeIds (s.occurrences levels)).count i ≤ s.ids.count i := by
  match s with
  | .expression id e | .print id e =>
    exact ((nodeIds_expr levels e).trans (List.sublist_append_left _ _)).count_le i
  | .var id name initializer =>
    have inner := (nodeIds_optional (announce levels name) initializer).count_le i
    rw [Stmt.occurrences, count_nodeIds_cons _ i rfl, Stmt.ids, List.count_append]
    exact Nat.add_le_add_right inner _
  | .block id body =>
    have inner := count_stmts (blockLevels levels id body) i body
    rw [Stmt.occurrences, count_nodeIds_cons _ i rfl, Stmt.ids, List.count_append]
    exact Nat.add_le_add_right inner _
  | .branch id condition yes none =>
    have first := (nodeIds_expr levels condition).count_le i
    have second := count_stmt levels i yes
    simp only [Stmt.occurrences, Stmt.ids, nodeIds_append, List.count_append]
    omega
  | .branch id condition yes (some no) =>
    have first := (nodeIds_expr levels condition).count_le i
    have second := count_stmt levels i yes
    have third := count_stmt (addAll levels yes.declared) i no
    simp only [Stmt.occurrences, Stmt.ids, nodeIds_append, List.count_append]
    omega
  | .loop id condition body =>
    have first := (nodeIds_expr levels condition).count_le i
    have second := count_stmt levels i body
    simp only [Stmt.occurrences, Stmt.ids, nodeIds_append, List.count_append]
    omega
  | .function decl =>
    rw [Stmt.occurrences, nodeIds_cons_none _ rfl]
    exact count_function (add levels decl.name) i decl
  | .returns id keyword value =>
    rw [Stmt.occurrences, nodeIds_cons_none _ rfl]
    exact ((nodeIds_optional levels value).trans (List.sublist_append_left _ _)).count_le i
  | .classDecl id name superclass methods =>
    have first := (nodeIds_heritage (add levels name) superclass).count_le i
    have second := count_methods (receiverLevel :: classLevels (add levels name) superclass) i
      methods
    rw [Stmt.occurrences, nodeIds_cons_none _ rfl, nodeIds_cons_none _ rfl]
    simp only [Stmt.ids, nodeIds_append, List.count_append]
    omega

theorem count_stmts (levels : List Level) (i : NodeId) (body : List Stmt) :
    (nodeIds (stmtsOccurrences levels body)).count i ≤ (stmtsIds body).count i := by
  match body with
  | [] => exact Nat.le_refl _
  | s :: rest =>
    rw [stmtsOccurrences, nodeIds_append, stmtsIds, List.count_append, List.count_append]
    exact Nat.add_le_add (count_stmt levels i s) (count_stmts _ i rest)

theorem count_function (levels : List Level) (i : NodeId) (decl : FunctionDecl) :
    (nodeIds (decl.occurrences levels)).count i ≤ decl.ids.count i := by
  match decl with
  | .mk id name params body =>
    have inner := count_stmts (functionLevels levels id params body) i body
    rw [FunctionDecl.occurrences, nodeIds_cons_none _ rfl, count_nodeIds_cons _ i rfl,
      nodeIds_append, nodeIds_parameters, List.nil_append, FunctionDecl.ids, List.count_append]
    exact Nat.add_le_add_right inner _

theorem count_methods (levels : List Level) (i : NodeId) (methods : List FunctionDecl) :
    (nodeIds (methodsOccurrences levels methods)).count i ≤ (methodsIds methods).count i := by
  match methods with
  | [] => exact Nat.le_refl _
  | m :: rest =>
    rw [methodsOccurrences, nodeIds_append, methodsIds, List.count_append, List.count_append]
    exact Nat.add_le_add (count_function levels i m) (count_methods levels i rest)

end

theorem numbered_nodes {lo hi : Nat} {program : List Stmt}
    (numbered : Numbered lo hi (stmtsIds program)) :
    Numbered lo hi (nodeIds (occurrencesOf program)) :=
  numbered.part fun i => count_stmts [] i program

theorem node_unique {occurrences : List Occurrence} {o other : Occurrence} {id : NodeId}
    (distinct : (nodeIds occurrences).Nodup) (one : o ∈ occurrences) (two : other ∈ occurrences)
    (node : o.node? = some id) (same : other.node? = some id) : o = other := by
  induction occurrences with
  | nil => cases one
  | cons first rest ih =>
    have split : nodeIds (first :: rest) = nodeIds [first] ++ nodeIds rest :=
      nodeIds_append [first] rest
    rw [split, List.nodup_append] at distinct
    obtain ⟨_, others, apart⟩ := distinct
    rcases List.mem_cons.mp one with rfl | later
    · rcases List.mem_cons.mp two with rfl | later'
      · rfl
      · exact absurd rfl (apart id (mem_nodeIds List.mem_cons_self node) id (mem_nodeIds later' same))
    · rcases List.mem_cons.mp two with rfl | later'
      · exact absurd rfl (apart id (mem_nodeIds List.mem_cons_self same) id (mem_nodeIds later node))
      · exact ih others later later'

theorem distance_eq (levels : List Level) (id : NodeId) (name : Token) :
    distance (scopesOf levels) id name =
      match locate levels name.lexeme with
      | some d => [(id, Int.ofNat d)]
      | none => [] := by
  simp only [distance, scopesOf, locate, List.findIdx?_map, Function.comp_def]
  rfl

theorem lookup_distance (o : Occurrence) (id : NodeId) (other : id ∉ nodeIds [o]) :
    o.distance.lookup id = none := by
  cases o with
  | use own name levels =>
    have differ : (id == own) = false := by simpa [nodeIds, Occurrence.node?] using other
    rw [Occurrence.distance, distance_eq]
    split <;> simp [List.lookup_cons, differ]
  | _ => rfl

theorem lookup_among_none {occurrences : List Occurrence} {id : NodeId}
    (other : id ∉ nodeIds occurrences) : (distancesAmong occurrences).lookup id = none := by
  induction occurrences with
  | nil => rfl
  | cons o rest ih =>
    have split : nodeIds (o :: rest) = nodeIds [o] ++ nodeIds rest := nodeIds_append [o] rest
    rw [split, List.mem_append, not_or] at other
    rw [distancesAmong, List.flatMap_cons, List.lookup_append, lookup_distance o id other.1, ih other.2]
    rfl

theorem lookup_foreign {program : List Stmt} {ds : Distances} {id : NodeId}
    (accepted : distancesOf program = .ok ds) (foreign : id ∉ nodeIds (occurrencesOf program)) :
    ds.lookup id = none := by
  rw [distances_eq_among accepted]
  exact lookup_among_none foreign

theorem lookup_among {occurrences : List Occurrence} {id : NodeId} {name : Token}
    {levels : List Level} (distinct : (nodeIds occurrences).Nodup)
    (member : Occurrence.use id name levels ∈ occurrences) :
    (distancesAmong occurrences).lookup id = (locate levels name.lexeme).map Int.ofNat := by
  induction occurrences with
  | nil => cases member
  | cons o rest ih =>
    have split : nodeIds (o :: rest) = nodeIds [o] ++ nodeIds rest := nodeIds_append [o] rest
    rw [split, List.nodup_append] at distinct
    obtain ⟨_, others, apart⟩ := distinct
    rw [distancesAmong, List.flatMap_cons, List.lookup_append]
    rcases List.mem_cons.mp member with rfl | later
    · have none : (distancesAmong rest).lookup id = none :=
        lookup_among_none fun inside => apart id List.mem_cons_self id inside rfl
      rw [none, Occurrence.distance, distance_eq]
      cases locate levels name.lexeme <;> simp
    · have other : id ∉ nodeIds [o] := fun inside => apart id inside id (mem_nodeIds later rfl) rfl
      rw [lookup_distance o id other, Option.none_or]
      exact ih others later

end LoxMachine.Static
