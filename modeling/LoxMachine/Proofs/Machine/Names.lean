import LoxMachine.Proofs.Machine.Alone
import LoxMachine.Proofs.Machine.Preservation
import LoxMachine.Proofs.Reach.Calls

namespace LoxMachine

open Static

namespace Machine

variable {c : Setting} {m : Machine} {G : Occurrence → Prop} {shape : List Origin}

/-- The scopes of the first state bind the same names in the other. -/
def NamesKept (m last : Machine) : Prop :=
  ∀ e < m.store.scopes.scopes.size, ∀ name,
    last.store.scopes.contains e name = m.store.scopes.contains e name

theorem Assigns.above {e : ScopeId} {name : String} (assigns : m.Assigns c e name)
    (waiting : List Frame) : (m.above waiting).Assigns c e name := by
  obtain ⟨control, frames, distance, found⟩ := assigns
  exact .intro control (congrArg (· ++ waiting) frames) distance found

def closed (m : Machine) : Extent :=
  ⟨m.scope, m.store.scopes.scopes.size, fun e name => m.store.scopes.contains e name = true, False⟩

theorem store_closed (m : Machine) : m.store.Keeps m.closed :=
  ⟨Nat.le_refl _, fun _ _ _ bound => bound⟩

theorem keeps_block {id : NodeId} {body : List Stmt}
    (control : m.control = .execute (.block id body)) : (step c m.alone).Keeps m.closed := by
  have begun : step c m.alone = m.alone.execute (.block id body) := by
    simp only [step, alone, control]
  rw [begun]
  have new : m.closed.first ≤ (m.store.openScope m.scope).2 := Nat.le_refl _
  exact ⟨false, rfl, m.store_closed.openScope m.scope, rfl, Extent.Admits.fresh new _, rfl,
    True.intro, rfl⟩

theorem keeps_invoke (m : Machine) (target : Callable) (arguments : List Value) :
    (invoke c m.alone target arguments).Keeps m.closed := by
  have ready : m.alone.Ready m.closed true := ⟨m.store_closed, rfl⟩
  cases target with
  | closure f => exact ready.enter f arguments
  | native f => exact ready.callHost f arguments
  | cls k => exact ready.instantiate k arguments

theorem grows_invoke (m : Machine) (target : Callable) (arguments : List Value) :
    Grows m (invoke c m target arguments) := by
  cases target with
  | closure f => exact (changes_enter c m f arguments).grows
  | native f => exact (changes_callHost m f arguments).grows
  | cls k => exact (changes_instantiate c m k arguments).grows

theorem namesKept_of_keeps {last : Machine} (keeps : last.Keeps m.closed) (grows : Grows m last) :
    m.NamesKept last := by
  intro e old name
  apply Bool.eq_iff_iff.mpr
  exact ⟨keeps.store.bound e old name, grows.contains e name⟩

theorem keeps_closed {first : Machine} (keeps : first.Keeps m.closed)
    (resolves : Resolves c.distances G) {waiting : List Frame}
    (fits : ∀ j, ∃ shape, ((run c j first).above waiting).Fits G shape) (n : Nat) :
    (run c n first).Keeps m.closed := by
  apply keeps.run
  intro j _ ⟨_, suits, ready⟩ e name assigns
  obtain ⟨shape, fit⟩ := fits j
  rcases (assigned_of_fits resolves fit (assigns.above waiting)).2 with bound | here
  · exact .inl bound
  · obtain ⟨control, frames, -, -⟩ := assigns
    have waits := ready.frames
    rw [frames] at waits
    have admits : m.closed.Admits e [] := here ▸ waits.2.1
    -- there is nothing to do in an older scope, so the current one is new
    exact .inr (Nat.le_of_not_lt fun old => (admits old).1)

/-- The state in which a new object of the class is initialized, and the initializer that is
called. -/
def initializing (m : Machine) (k : Class) (method : Method) : Machine × Closure :=
  let (store, object) := m.store.instantiate k
  let (store, f) := store.bind method (.object object)
  ({ m with store, frames := .construct object :: m.frames }, f)

/-- By the next step the value is called with the arguments, in the base state. The call of a class
also calls its initializer. -/
inductive Calls (m : Machine) : Machine → Callable → List Value → Prop
  | first {callee paren rest} {target : Callable} (control : m.control = .value target.value)
      (frames : m.frames = .callee callee paren [] :: rest) (right : target.arity = 0) :
      Calls m { m with frames := rest } target []
  | last {a callee paren given rest} {target : Callable} (control : m.control = .value a)
      (frames : m.frames = .argument target.value callee paren given [] :: rest)
      (right : target.arity = given.length + 1) :
      Calls m { m with frames := rest } target (a :: given).reverse
  | initializer {base k arguments method} (called : Calls m base (.cls k) arguments)
      (found : k.initializer = some method) :
      Calls m (base.initializing k method).1 (.closure (base.initializing k method).2) arguments

theorem step_of_calls {base : Machine} {target : Callable} {arguments : List Value}
    (calls : m.Calls base target arguments) : step c m = invoke c base target arguments := by
  induction calls with
  | @first callee paren rest target control frames right =>
    have given : ([] : List Value).length = target.arity := right.symm
    simp only [step, control, frames, resume, supply, List.reverse_nil]
    exact call_eq_invoke callee paren target given
  | @last a callee paren given rest target control frames right =>
    have given : (a :: given).reverse.length = target.arity := by
      rw [List.length_reverse, List.length_cons, right]
    simp only [step, control, frames, resume, supply]
    exact call_eq_invoke callee paren target given
  | initializer called found ih =>
    rw [ih]
    simp only [invoke, instantiate, found]
    rfl

theorem going_of_calls {base : Machine} {target : Callable} {arguments : List Value}
    (calls : m.Calls base target arguments) : m.isOver = false := by
  induction calls with
  | first control frames | last control frames => simp [isOver, control, frames]
  | initializer called found ih => exact ih

theorem run_of_calls {base : Machine} {target : Callable} {arguments : List Value}
    (calls : m.Calls base target arguments) (n : Nat) :
    ∃ k ≤ n, run c (k + 1) m = (callAlone c base target arguments n).above base.frames := by
  classical
  obtain ⟨k, early, same⟩ := callAlone_amid c base target arguments n
  refine ⟨k, early, ?_⟩
  rw [run, going_of_calls calls, if_neg Bool.false_ne_true, step_of_calls calls, same]
  rfl

end Machine

end LoxMachine
