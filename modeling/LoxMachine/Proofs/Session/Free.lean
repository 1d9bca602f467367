import LoxMachine.Proofs.Scope.Renumbered
import LoxMachine.Proofs.Session.Renamed

namespace LoxMachine

theorem Store.Change.discreet_before {s t : Store} (change : s.Change t) (discreet : t.Discreet) :
    s.Discreet := by
  cases change with
  | define | openScope | identify | instantiate | setField => exact discreet
  | callHost g arguments => exact discreet.of_functions (Store.functions_callHost g arguments).symm

theorem Machine.discreet_before_run (c : Setting) (n : Nat) {m : Machine}
    (discreet : (run c n m).store.Discreet) : m.store.Discreet := by
  have becomes : m.store.Becomes (run c n m).store := changes_run c m n
  generalize m.store = first at becomes ⊢
  induction becomes using Relation.ReflTransGen.head_induction_on with
  | refl => exact discreet
  | head change _ ih => exact change.discreet_before ih

namespace Session

variable {f : NodeId → NodeId} {programs : List (List Stmt)} {held : List Value} {s : Session}

theorem discreet_before_native {name : String} {arity : Nat} {function : HostFunction}
    (discreet : (s.defineNative name arity function).1.store.Discreet) : s.store.Discreet := by
  intro index entry found
  refine discreet index entry ?_
  change (s.store.host.push ⟨function, 0⟩)[index]? = some entry
  have inside : index < s.store.host.size := (Array.getElem?_eq_some_iff.mp found).1
  rw [Array.getElem?_push, if_neg (Nat.ne_of_lt inside), found]

theorem Renamed.holds (same : s.Renamed f s) {a : Value} (holds : s.store.Holds a) :
    a.rename f = a := by
  rcases holds with ⟨e, name, found⟩ | ⟨o, name, found⟩ | given
  · have again := s.store.scopes.get_rename f e name
    have scopes : s.store.scopes = s.store.scopes.rename f := congrArg Store.scopes same.store
    rw [← scopes, found] at again
    exact (Except.ok.inj again).symm
  · have again := s.store.fieldsOf_rename f o
    rw [← same.store] at again
    have there : (s.store.fieldsOf o).get? name = ((s.store.fieldsOf o).rename f).get? name :=
      congrArg (Table.get? · name) again
    rw [Table.rename, Table.get?_recode_id, found] at there
    exact (Option.some.inj there).symm
  · have kept : s.store.kept.map (·.rename f) = s.store.kept.map id :=
      (congrArg Store.kept same.store).symm.trans (List.map_id _).symm
    exact List.map_inj_left.mp kept a given

theorem stmtsRename_still {program : List Stmt} (still : ∀ id ∈ stmtsIds program, f id = id) :
    stmtsRename f program = program := by
  have same : stmtsRename f program = stmtsRename (· + 0) program := stmtsRename_congr program still
  rw [same, ← stmtsRenumber_eq_rename, stmtsRenumber_zero]

/-- The numbers that no program has yet can be changed without changing the session. -/
theorem renamed_of_free (reached : Reachable programs held s) (discreet : s.store.Discreet)
    (apart : ∀ i j, f i = f j → i = j) (still : ∀ id < s.nextId, f id = id) :
    s.Renamed f s ∧ ∀ a ∈ held, a.rename f = a := by
  induction reached with
  | empty file => exact ⟨renamed_empty f file, fun _ absent => nomatch absent⟩
  | keep reached holds ih =>
    obtain ⟨same, others⟩ := ih discreet still
    exact ⟨same, List.forall_mem_cons.mpr ⟨same.holds holds, others⟩⟩
  | native reached name arity function ih =>
    obtain ⟨same, others⟩ := ih (discreet_before_native discreet) still
    obtain ⟨after, native⟩ := same.defineNative name arity function
    exact ⟨after, List.forall_mem_cons.mpr ⟨native.symm, others⟩⟩
  | @setGlobal programs held s a reached name known ih =>
    obtain ⟨same, others⟩ := ih discreet still
    have value : a.rename f = a :=
      of_known (P := fun a => a.rename f = a) others (Value.mapCode_toValue _) known
    have after := same.setGlobal name a
    rw [value] at after
    exact ⟨after, others⟩
  | @entrust programs held s a reached known ih =>
    obtain ⟨same, others⟩ := ih discreet still
    have value : a.rename f = a :=
      of_known (P := fun a => a.rename f = a) others (Value.mapCode_toValue _) known
    have after := same.entrust a
    rw [value] at after
    exact ⟨after, others⟩
  | @rejected programs held s t limits source rejection reached result ih =>
    have below := nextId_of_read s source
    rw [eq_of_rejected result] at discreet still ⊢
    rw [read_eq] at discreet ⊢
    obtain ⟨same, others⟩ := ih discreet fun id older => still id (Nat.lt_of_lt_of_le older below)
    exact ⟨⟨rfl, same.store, rfl, same.distances⟩, others⟩
  | @ran programs held s source program ds reached limits accepted ended ih =>
    have below := nextId_of_read s source
    have before := Machine.discreet_before_run _ _ discreet
    obtain ⟨same, others⟩ := ih before fun id older => still id (Nat.lt_of_lt_of_le older below)
    have program_still : stmtsRename f program = program :=
      stmtsRename_still fun id member => still id (accepted.built.1.2.2 id member).2
    have distances_still : ds.rename f = ds := by
      have again := distancesOf_rename f program
      rw [program_still, accepted.distances] at again
      exact (Except.ok.inj again).symm
    obtain ⟨after, _⟩ := same.interpret apart before limits program ds
    rw [program_still, distances_still] at after
    exact ⟨⟨rfl, after.store, rfl, after.distances⟩, others⟩

end Session

end LoxMachine
