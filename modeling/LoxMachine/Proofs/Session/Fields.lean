import LoxMachine.Proofs.Machine.Fields
import LoxMachine.Proofs.Session.Completions
import LoxMachine.Proofs.Value.Latest

namespace LoxMachine

def Event.Stores (id : ObjectId) (name : String) (v : Value) : Event → Prop
  | step _ m => m.Stores id name v
  | native _ _ => False

namespace Session

variable {past : List Event} {id : ObjectId} {name : String} {v : Value}

/-- The value was the last one to be stored under the name in the object. -/
def Latest (past : List Event) (id : ObjectId) (name : String) (v : Value) : Prop :=
  ∃ before event after, past = before ++ event :: after ∧ event.Stores id name v ∧
    ∀ later ∈ after, ∀ w, ¬ later.Stores id name w

def Never (past : List Event) (id : ObjectId) (name : String) : Prop :=
  ∀ event ∈ past, ∀ w, ¬ event.Stores id name w

theorem latest_concat {event : Event} : Latest (past ++ [event]) id name v ↔
    event.Stores id name v ∨ (∀ w, ¬ event.Stores id name w) ∧ Latest past id name v :=
  lastWritten_concat (W := fun (event : Event) v => event.Stores id name v)

theorem latest_or_never (past : List Event) (id : ObjectId) (name : String) :
    (∃ v, Latest past id name v) ∨ Never past id name :=
  lastWritten_or_never (fun (event : Event) v => event.Stores id name v) past

theorem Never.not_latest (never : Never past id name) : ¬ Latest past id name v :=
  NeverWritten.not_lastWritten (W := fun (event : Event) v => event.Stores id name v) never

def Reflects (past : List Event) (s : Store) : Prop :=
  ∀ (o : Object) name v, (s.fieldsOf o).get? name = some v ↔ Latest past o.id name v

variable {programs : List (List Stmt)} {held : List Value} {s : Session} {events : List Event}
  {program : List Stmt} {ds : Distances} {c : Setting} {m : Machine} {depth n : Nat}

theorem Reflects.congr {s t : Store} (reflects : Reflects past s)
    (fields : t.fields = s.fields ∨ t.fields = s.fields.push []) : Reflects past t := by
  have same : ∀ o, t.fieldsOf o = s.fieldsOf o := by
    intro o
    rcases fields with same | more
    · rw [Store.fieldsOf, same, Store.fieldsOf]
    · simp only [Store.fieldsOf, more, Array.getElem?_push]
      split
      · rename_i new
        rw [new, Array.getElem?_eq_none (Nat.le_refl _)]
        rfl
      · rfl
  exact fun o name v => same o ▸ reflects o name v

theorem Reflects.setField {s : Store} (reflects : Reflects past s) {o : Object}
    (there : o.id < s.fields.size) {event : Event}
    (only : ∀ id other w, event.Stores id other w ↔ id = o.id ∧ other = name ∧ w = v) :
    Reflects (past ++ [event]) (s.setField o name v) := by
  intro query other w
  have fields : (s.setField o name v).fieldsOf query =
      if o.id = query.id then (s.fieldsOf query).put name v else s.fieldsOf query := by
    simp only [Store.setField, Store.fieldsOf, Array.getElem?_modify]
    split
    · rename_i same
      rw [← same, Array.getElem?_eq_getElem there]
      rfl
    · rfl
  rw [fields, latest_concat, ← reflects query other w]
  by_cases same : o.id = query.id
  · rw [if_pos same, Table.get?_put]
    by_cases named : other = name
    · simp [only, same, named, eq_comm]
    · simp [only, named]
  · have apart : query.id ≠ o.id := fun equal => same equal.symm
    simp [only, same, apart]

theorem Reflects.step (reflects : Reflects past m.store)
    (there : ∀ o name waiting, m.frames = .field o name :: waiting → o.id < m.store.fields.size) :
    Reflects (past ++ [.step c m]) (Machine.step c m).store := by
  rcases Machine.fields_step c m with ⟨v, o, name, waiting, control, frames⟩ | ⟨none, fields⟩
  · rw [Machine.step_storing control frames]
    refine Reflects.setField reflects (there o name waiting frames) fun id other w => ⟨?_, ?_⟩
    · exact fun stores => Machine.stores_unique stores (.mk control frames)
    · rintro ⟨rfl, rfl, rfl⟩
      exact .mk control frames
  · have still : Reflects (past ++ [.step c m]) m.store := by
      intro o name v
      rw [reflects o name v, latest_concat]
      constructor
      · exact fun latest => .inr ⟨none o.id name, latest⟩
      · rintro (stores | ⟨_, latest⟩)
        · exact absurd stores (none o.id name v)
        · exact latest
    exact still.congr fields

theorem reflects_point (history : History programs held s events)
    (reflects : Reflects events s.store) (depth : Nat) (program : List Stmt) (ds : Distances)
    (n : Nat) :
    Reflects (s.eventsAt depth program ds n events) (s.point depth program ds n).store := by
  obtain ⟨_, _, made⟩ := made_of_history history
  refine holds_eventsAt (P := fun past m => Reflects past m.store) reflects (fun k before => ?_) n
  obtain ⟨i, _, _, there, _⟩ := made.point depth program ds k
  refine before.step fun o name waiting frames => ?_
  have known : (Value.object o).Made i :=
    there.frames (.field o name) (frames ▸ List.mem_cons_self)
  rw [← there.store.counted]
  exact (List.getElem?_eq_some_iff.mp known).1

theorem reflects_of_history (history : History programs held s events) :
    Reflects events s.store := by
  induction history with
  | empty file =>
    intro o name v
    have none : ¬ Latest [] o.id name v := fun latest =>
      (Never.not_latest (List.forall_mem_nil _)) latest
    have empty : (Session.empty file).store.fieldsOf o = [] := rfl
    rw [empty]
    exact ⟨fun absent => (nomatch absent), fun latest => absurd latest none⟩
  | keep _ _ ih | entrust _ _ ih => exact ih
  | setGlobal _ name known ih => exact ih.congr (.inl rfl)
  | native _ name arity function ih =>
    intro o other v
    rw [latest_concat]
    have same := ih o other v
    constructor
    · exact fun found => .inr ⟨fun _ stores => stores, same.mp found⟩
    · rintro (stores | ⟨_, latest⟩)
      · exact stores.elim
      · exact same.mpr latest
  | rejected _ result ih =>
    rw [eq_of_rejected result, read_eq]
    exact ih
  | ran history limits accepted ended ih => exact reflects_point history ih _ _ _ _

/-- Every value that was stored is that of an assignment to a field that began before. -/
def Tracked (past : List Event) : Prop :=
  ∀ c m, .step c m ∈ past → ∀ v o name waiting, m.control = .value v →
    m.frames = .field o name :: waiting →
      ∃ k, .step c k ∈ past ∧ Machine.Sets c k m o name v

theorem Tracked.eventsAt (tracked : Tracked events) (depth : Nat) (program : List Stmt)
    (ds : Distances) (n : Nat) : Tracked (s.eventsAt depth program ds n events) := by
  intro c m member v o name waiting control frames
  rcases List.mem_append.mp member with before | now
  · obtain ⟨k, known, sets⟩ := tracked c m before v o name waiting control frames
    exact ⟨k, List.mem_append_left _ known, sets⟩
  · obtain ⟨rfl, j, early, rfl, _⟩ := Machine.exists_of_mem_steps now
    have others : ∀ frame ∈ (s.machine .done [.sequence program]).frames, frame.isStore = false :=
      List.forall_mem_singleton.mpr rfl
    obtain ⟨_, ⟨i, sooner, rfl⟩, sets⟩ := (Machine.tracked_run others j).sets control frames
    refine ⟨_, mem_eventsAt s events (Nat.lt_trans sooner early) ?_, sets⟩
    obtain ⟨_, _, _, _, begins, _⟩ := sets
    unfold point
    simp only [Machine.isOver, begins]

theorem tracked_of_history (history : History programs held s events) : Tracked events := by
  induction history with
  | empty file => exact fun _ _ absent => nomatch absent
  | keep _ _ ih | setGlobal _ _ _ ih | entrust _ _ ih | rejected _ _ ih => exact ih
  | native _ name arity function ih =>
    intro c m member v o other waiting control frames
    rcases List.mem_append.mp member with before | now
    · obtain ⟨k, known, sets⟩ := ih c m before v o other waiting control frames
      exact ⟨k, List.mem_append_left _ known, sets⟩
    · cases List.mem_singleton.mp now
  | ran history limits accepted ended ih => exact ih.eventsAt _ _ _ _

end Session

end LoxMachine
