import LoxMachine.Proofs.Reach.Confined

namespace LoxMachine

/-- Contents outside of a region can be anything where the cells are the same. -/
theorem Store.Alike.region {s t : Store} {held : List Value} (alike : s.Alike (s.Reaches held) t) :
    s.Alike (s.Region held) t where
  kept := alike.kept
  nextIdentity := alike.nextIdentity
  scopes := alike.scopes
  objects := alike.objects
  hosts := alike.hosts
  same p here := by
    rcases here with reached | absent
    · exact alike.same p reached
    · cases p with
      | scope e =>
        have past : s.scopes.scopes.size ≤ e := Nat.le_of_not_lt absent
        exact (Array.getElem?_eq_none (Nat.le_trans (Nat.le_of_eq alike.scopes) past)).trans
          (Array.getElem?_eq_none past).symm
      | object o =>
        have past : s.fields.size ≤ o := Nat.le_of_not_lt absent
        exact (Array.getElem?_eq_none (Nat.le_trans (Nat.le_of_eq alike.objects) past)).trans
          (Array.getElem?_eq_none past).symm
      | host index =>
        have past : s.host.size ≤ index := Nat.le_of_not_lt absent
        exact (Array.getElem?_eq_none (Nat.le_trans (Nat.le_of_eq alike.hosts) past)).trans
          (Array.getElem?_eq_none past).symm

namespace Machine

/-- The state after so many steps of a call by itself, at most to its end. -/
def callAlone (c : Setting) (m : Machine) (target : Callable) (arguments : List Value) (n : Nat) :
    Machine :=
  run c n (invoke c { m with frames := [] } target arguments)

section Region

variable (c : Setting) (m : Machine) (target : Callable) (arguments : List Value) (n : Nat)
  [DecidablePred (m.store.Region (target.value :: arguments))]

theorem confined_begin :
    Confined (m.store.Region (target.value :: arguments)) { m with frames := [] }
      (invoke c · target arguments) := by
  have held : Held (m.store.Region (target.value :: arguments)) { m with frames := [] } :=
    ⟨m.store.within_region _, True.intro⟩
  apply confined_invoke held
  · exact fun p mentioned => .inl (.held List.mem_cons_self mentioned)
  · exact fun a member p mentioned =>
      .inl (.held (List.mem_cons_of_mem _ member) mentioned)

theorem within_callAlone :
    (callAlone c m target arguments n).Within (m.store.Region (target.value :: arguments)) :=
  within_run (confined_begin c m target arguments m.store []).2 n

theorem callAlone_beside {t : Store}
    (alike : m.store.Alike (m.store.Region (target.value :: arguments)) t) :
    callAlone c { m with store := t } target arguments n =
      { callAlone c m target arguments n with
        store := (callAlone c m target arguments n).store.beside
          (m.store.Region (target.value :: arguments)) t } := by
  obtain ⟨same, begun⟩ := confined_begin c m target arguments t []
  simp only [amid, List.append_nil, Store.beside_of_alike alike] at same
  simp only [callAlone, same]
  exact run_beside begun t n

/-- The call does the same among the frames that wait for it. -/
theorem callAlone_amid :
    ∃ k ≤ n, run c k (invoke c m target arguments) =
      { callAlone c m target arguments n with
        frames := (callAlone c m target arguments n).frames ++ m.frames } := by
  have alike := m.store.alike_refl (P := m.store.Region (target.value :: arguments))
  obtain ⟨same, begun⟩ := confined_begin c m target arguments m.store m.frames
  obtain ⟨k, early, later⟩ := run_amid (c := c) begun m.store m.frames n
  have kept : (callAlone c m target arguments n).store =
      (callAlone c m target arguments n).store.beside _ m.store :=
    congrArg Machine.store (callAlone_beside c m target arguments n alike)
  simp only [amid, List.nil_append, Store.beside_of_alike alike] at same
  refine ⟨k, early, ?_⟩
  rw [same]
  apply later.trans
  simp only [amid]
  exact congrArg (fun store => Machine.mk _ _ _ _ store _ _) kept.symm

end Region

/-- At any point of a call, or at its end, however it ends, scopes, objects and functions of the host
that it does not reach are as they were. Had they held anything else before, the state would be the
same but for them. What the host keeps is reached from a function that may answer with it, as what a
scope holds is reached from the functions that stand in it. -/
theorem call_confined (c : Setting) (m : Machine) (target : Callable) (arguments : List Value)
    (n : Nat) :
    let held := target.value :: arguments
    let after := callAlone c m target arguments n
    (∃ k ≤ n, run c k (invoke c m target arguments) =
      { after with frames := after.frames ++ m.frames }) ∧
    (∀ p, m.store.Has p → ¬ m.store.Reaches held p → m.store.SameAt after.store p) ∧
    ∀ other, m.store.Alike (m.store.Reaches held) other →
      let there := callAlone c { m with store := other } target arguments n
      there = { after with store := there.store } ∧
        after.store.Alike (m.store.Region held) there.store := by
  classical
  intro held after
  refine ⟨callAlone_amid c m target arguments n, ?_, ?_⟩
  · intro p old unreached
    have outside : ¬ m.store.Region held p := fun inside =>
      inside.elim unreached fun absent => absent old
    have within := (within_callAlone c m target arguments n).store
    have still : after.store.Has p :=
      Classical.byContradiction fun absent => outside (within.fresh p absent)
    -- beside its own store the call is the call itself, so the outside is still that store's
    have kept : after.store = after.store.beside (m.store.Region held) m.store :=
      congrArg Machine.store
        (callAlone_beside c m target arguments n (m.store.alike_refl (P := m.store.Region held)))
    rw [kept]
    exact Store.sameAt_beside still old outside
  · intro other alike there
    have same : there = { after with store := after.store.beside (m.store.Region held) other } :=
      callAlone_beside c m target arguments n alike.region
    constructor
    · rw [same]
    · rw [same]
      exact Store.alike_beside

def marker : FunctionDecl :=
  .mk 1 ⟨.identifier, "mark", 1⟩ [⟨.identifier, "o", 1⟩]
    [.expression 5 (.set 4 (.read ⟨2, ⟨.identifier, "o", 1⟩⟩) ⟨.identifier, "f", 1⟩
        (.literal 3 (.string "b"))),
      .print 8 (.get 7 (.read ⟨6, ⟨.identifier, "o", 1⟩⟩) ⟨.identifier, "f", 1⟩)]

def caller (a : Value) : Machine where
  control := .done
  frames := [.discard]
  scope := 1
  depth := 0
  store := ⟨⟨#[⟨none, []⟩, ⟨some 0, [("x", a)]⟩]⟩, #[[], [("x", a)]], #[], [], 1⟩
  printed := []
  classes := []

def plain : Class := ⟨0, "K", none, []⟩

theorem reaches_marker {a : Value} {p : Cell}
    (reached : (caller a).store.Reaches [.closure ⟨0, marker, 0, false⟩, .object ⟨0, plain⟩] p) :
    p = .scope 0 ∨ p = .object 0 := by
  induction reached with
  | globals => exact .inl rfl
  | held member mentioned =>
    rcases List.mem_cons.mp member with rfl | member
    · cases mentioned
      exact .inl rfl
    · cases List.mem_singleton.mp member
      cases mentioned with
      | object => exact .inr rfl
      | kind method =>
        cases method with
        | method member => cases member
        | inherited extended _ => cases extended
  | enclosing _ around ih =>
    rcases ih with same | same <;> cases same
    cases around
  | binding _ member _ ih =>
    rcases ih with same | same <;> cases same
    cases member
  | @field o _ _ _ _ member _ ih =>
    obtain ⟨id, _⟩ := o
    rcases ih with same | same <;> cases same
    cases member
  | kept _ _ _ _ _ ih => rcases ih with same | same <;> cases same

/-- It changes its argument, leaves what only its caller holds as it is, and prints the same
whatever that is. -/
theorem call_confined_marker :
    let c : Setting := ⟨[(2, 0), (6, 0)], 1⟩
    let target : Callable := .closure ⟨0, marker, 0, false⟩
    let after := callAlone c (caller .nil) target [.object ⟨0, plain⟩] 20
    let there := callAlone c (caller (.bool true)) target [.object ⟨0, plain⟩] 20
    after.printed = ["b"] ∧ there.printed = ["b"] ∧
      ¬ (caller .nil).store.SameAt after.store (.object 0) ∧
      (caller .nil).store.SameAt after.store (.scope 1) ∧
      (caller .nil).store.SameAt after.store (.object 1) := by
  intro c target after there
  have printed : after.printed = ["b"] := by decide +kernel
  have marked : after.store.fields[0]?.map List.length = some 1 := by decide +kernel
  obtain ⟨-, kept, alike⟩ := call_confined c (caller .nil) target [.object ⟨0, plain⟩] 20
  have bystander : (caller .nil).store.Alike
      ((caller .nil).store.Reaches [target.value, .object ⟨0, plain⟩])
      (caller (.bool true)).store := by
    refine ⟨rfl, rfl, rfl, rfl, rfl, fun p reached => ?_⟩
    rcases reaches_marker reached with rfl | rfl <;> rfl
  have same : there = { after with store := there.store } := (alike _ bystander).1
  have scope := kept (.scope 1) (by decide) fun reached => by
    rcases reaches_marker reached with same | same <;> cases same
  have object := kept (.object 1) (by decide) fun reached => by
    rcases reaches_marker reached with same | same <;> cases same
  refine ⟨printed, ?_, fun unmarked => ?_, scope, object⟩
  · clear_value after there
    rw [same]
    exact printed
  · have length := congrArg (Option.map List.length) unmarked
    cases marked.symm.trans length

end Machine

end LoxMachine
