import LoxMachine.Proofs.Machine.Names
import LoxMachine.Proofs.Machine.Made

namespace LoxMachine.Machine

open Static

/-- By the next step a method is looked up by a name and is bound to the receiver as the function. -/
inductive LooksUp (c : Setting) (m : Machine) : String → Method → Value → Closure → Prop
  | property {o name rest method} (control : m.control = .value (.object o))
      (frames : m.frames = .property name :: rest)
      (missing : (m.store.fieldsOf o).get? name.lexeme = none)
      (found : o.cls.findMethod name.lexeme = some method) :
      LooksUp c m name.lexeme method (.object o) (m.store.bind method (.object o)).2
  | inherited {id keyword name d base receiver method}
      (control : m.control = .evaluate (.super id keyword name))
      (distance : c.distances.lookup id = some d)
      (extended : m.store.scopes.getAt m.scope d "super" = .ok (.cls base))
      (receives : m.store.scopes.getAt m.scope (d - 1) "this" = .ok receiver)
      (found : base.findMethod name.lexeme = some method) :
      LooksUp c m name.lexeme method receiver (m.store.bind method receiver).2
  | initializer {base k arguments method} (calls : m.Calls base (.cls k) arguments)
      (found : k.initializer = some method) :
      LooksUp c m "init" method (.object (base.store.instantiate k).2)
        (base.initializing k method).2

variable {c : Setting} {m base : Machine} {arguments : List Value}

theorem base_of_calls {k : Class} (calls : m.Calls base (.cls k) arguments) :
    ∃ frames, base = { m with frames } := by
  cases calls with
  | first | last => exact ⟨_, rfl⟩

theorem openings_of_calls {k : Class} (calls : m.Calls base (.cls k) arguments) :
    openings c m = instantiateOpenings c base k := by
  cases calls with
  | @first callee paren rest _ control frames right =>
    have given : ([] : List Value).length = k.arity := right.symm
    simp [openings, control, frames, resumeOpenings, supplyOpenings, callOpenings, Callable.value,
      Value.callable?, Callable.arity, given]
  | @last a callee paren given rest _ control frames right =>
    have given : (a :: given).length = k.arity := right.symm
    simp [openings, control, frames, resumeOpenings, supplyOpenings, callOpenings, Callable.value,
      Value.callable?, Callable.arity, ← given]

theorem mem_openings_of_looksUp {name : String} {method : Method} {a : Value} {f : Closure}
    (looks : m.LooksUp c name method a f) : .receiver method a f ∈ openings c m := by
  cases looks with
  | @property o name rest method control frames missing found =>
    obtain ⟨_, _, scope, depth, store, printed, classes⟩ := m
    cases control
    cases frames
    dsimp only at missing
    simp [openings, resumeOpenings, propertyOpenings, missing, found]
  | inherited control distance extended receives found =>
    simp [openings, control, evaluateOpenings, superOpenings, distance, extended, receives, found]
  | initializer calls found =>
    rw [openings_of_calls calls, instantiateOpenings, found]
    exact List.mem_cons_self

theorem not_mem_enterOpenings {method : Method} {a : Value} {f g : Closure} :
    .receiver method a f ∉ enterOpenings c base g := by
  unfold enterOpenings
  split
  · exact List.not_mem_nil
  · intro member
    cases List.mem_singleton.mp member

theorem initializer_of_mem_openings {calleeValue : Value} {method : Method} {a : Value}
    {f : Closure} (member : .receiver method a f ∈ callOpenings c base calleeValue arguments) :
    ∃ k, calleeValue = .cls k ∧ arguments.length = k.arity ∧ k.initializer = some method ∧
      a = .object (base.store.instantiate k).2 ∧ f = (base.initializing k method).2 := by
  unfold callOpenings at member
  cases calleeValue with
  | closure g =>
    dsimp only [Value.callable?] at member
    split at member
    · cases member
    · exact absurd member not_mem_enterOpenings
  | native g =>
    dsimp only [Value.callable?] at member
    split at member <;> cases member
  | cls k =>
    dsimp only [Value.callable?] at member
    split at member
    · cases member
    · rename_i right
      unfold instantiateOpenings at member
      cases found : k.initializer with
      | none =>
        rw [found] at member
        cases member
      | some own =>
        rw [found] at member
        rcases List.mem_cons.mp member with same | called
        · cases same
          exact ⟨k, rfl, Decidable.not_not.mp right, found, rfl, rfl⟩
        · exact absurd called not_mem_enterOpenings
  | nil | bool _ | number _ | string _ | object _ => cases member

/-- Only a method that is looked up has a scope opened for its receiver. -/
theorem looksUp_of_mem_openings {method : Method} {a : Value} {f : Closure}
    (member : .receiver method a f ∈ openings c m) : ∃ name, m.LooksUp c name method a f := by
  obtain ⟨control, frames, scope, depth, store, printed, classes⟩ := m
  cases control with
  | evaluate e =>
    cases e with
    | super id keyword name =>
      simp only [openings, evaluateOpenings, superOpenings] at member
      split at member
      · cases member
      · rename_i d distance
        split at member
        · cases member
        · rename_i base extended
          split at member
          · cases member
          · rename_i receiver receives
            split at member
            · rename_i base
              split at member
              · rename_i own found
                cases List.mem_singleton.mp member
                exact ⟨_, .inherited rfl distance extended receives found⟩
              · cases member
            · cases member
    | _ => cases member
  | execute st =>
    cases st with
    | block id body => cases List.mem_singleton.mp member
    | _ => cases member
  | value b =>
    cases frames with
    | nil => cases member
    | cons frame rest =>
      cases frame with
      | callee callee paren remaining =>
        cases remaining with
        | nil =>
          obtain ⟨k, rfl, right, found, rfl, rfl⟩ := initializer_of_mem_openings member
          exact ⟨_, .initializer (.first rfl rfl right.symm) found⟩
        | cons e others => cases member
      | argument calleeValue callee paren given remaining =>
        cases remaining with
        | nil =>
          obtain ⟨k, rfl, right, found, rfl, rfl⟩ := initializer_of_mem_openings member
          rw [List.length_reverse] at right
          exact ⟨_, .initializer (.last rfl rfl right.symm) found⟩
        | cons e others => cases member
      | property name =>
        simp only [openings, resumeOpenings, propertyOpenings] at member
        split at member
        · rename_i o
          split at member
          · cases member
          · rename_i missing
            split at member
            · rename_i own found
              cases List.mem_singleton.mp member
              exact ⟨_, .property rfl rfl missing found⟩
            · cases member
        · cases member
      | heritage superclass name methods =>
        cases b with
        | cls base => cases List.mem_singleton.mp member
        | _ => cases member
      | _ => cases member
  | done | returning _ | failing _ => cases member

theorem isInitializer_of_looksUp {name : String} {method : Method} {a : Value} {f : Closure}
    (looks : m.LooksUp c name method a f) : f.isInitializer = method.isInitializer := by
  cases looks <;> rfl

section Called

variable {P : Value → Prop} (hand : ∀ a, m.control = .value a → P a)
  (waiting : ∀ a callee paren given rest, .argument a callee paren given rest ∈ m.frames → P a)

include hand waiting

/-- What is called is the value at hand, or the value that its arguments waited with, unless it is an
initializer that is bound by the same step. -/
theorem target_of_calls {target : Callable} (calls : m.Calls base target arguments) :
    P target.value ∨ ∃ inner k method, m.Calls inner (.cls k) arguments ∧
      k.initializer = some method ∧ target = .closure (inner.initializing k method).2 := by
  cases calls with
  | first control frames right => exact .inl (hand _ control)
  | last control frames right => exact .inl (waiting _ _ _ _ _ (frames ▸ List.mem_cons_self))
  | initializer called found => exact .inr ⟨_, _, _, called, found, rfl⟩

theorem class_of_calls {k : Class} (calls : m.Calls base (.cls k) arguments) : P (.cls k) := by
  rcases target_of_calls hand waiting calls with known | ⟨_, _, _, _, _, same⟩
  · exact known
  · cases same

theorem native_of_calls {f : Native} (calls : m.Calls base (.native f) arguments) :
    P (.native f) := by
  rcases target_of_calls hand waiting calls with known | ⟨_, _, _, _, _, same⟩
  · exact known
  · cases same

theorem closure_of_calls {f : Closure} (calls : m.Calls base (.closure f) arguments) :
    P (.closure f) ∨ ∃ method a, m.LooksUp c "init" method a f := by
  rcases target_of_calls hand waiting calls with known | ⟨_, _, _, called, found, same⟩
  · exact .inl known
  · cases same
    exact .inr ⟨_, _, .initializer called found⟩

end Called

theorem fits_of_waiting {w : World} {demand : Demand} {e : ScopeId} {frames : List Frame}
    (fit : FramesFit w demand e frames) {a : Value} {callee : Expr} {paren : Token}
    {given : List Value} {rest : List Expr}
    (member : .argument a callee paren given rest ∈ frames) : a.Fits w := by
  induction fit with
  | nil => cases member
  | expression announced fits others ih =>
    rcases List.mem_cons.mp member with rfl | further
    · exact fits.1
    · exact ih further
  | statement fits others ih =>
    rcases List.mem_cons.mp member with rfl | further
    · exact fits.elim
    · exact ih further
  | define _ _ ih | heritage _ _ _ ih | again _ _ _ _ ih | sequence _ _ ih | leaveBlock _ _ ih
  | leaveCall _ _ _ ih =>
    rcases List.mem_cons.mp member with same | further
    · cases same
    · exact ih further

theorem fits_of_hand {G : Occurrence → Prop} {shape : List Origin} (fits : m.Fits G shape) {a : Value}
    (control : m.control = .value a) : a.Fits (m.world G shape) := by
  cases fits with
  | value _ at_hand _ _ fits =>
    cases at_hand.symm.trans control
    exact fits
  | evaluate _ at_hand | execute _ _ at_hand | done _ _ at_hand | returning _ _ at_hand
  | failing _ at_hand => cases at_hand.symm.trans control

theorem made_of_looksUp {i : Inventory} (made : m.Made i) {name : String} {method : Method}
    {a : Value} {f : Closure} (looks : m.LooksUp c name method a f) : method.Made i name := by
  have at_hand := made.control
  cases looks with
  | property control frames missing found =>
    rw [control] at at_hand
    exact made.store.findMethod (made.store.holds at_hand) found
  | inherited control distance extended receives found =>
    exact made.store.findMethod (made.store.getAt extended) found
  | @initializer inner k arguments _ calls found =>
    have known : (Value.cls k).Made i := by
      apply class_of_calls _ _ calls
      · intro a control
        rwa [control] at at_hand
      · exact fun a callee paren given rest waits => (made.frames _ waits).1
    exact made.store.findMethod known found

end LoxMachine.Machine
