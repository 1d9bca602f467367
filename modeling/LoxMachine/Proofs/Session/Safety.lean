import LoxMachine.Proofs.Session.Reachable

namespace LoxMachine

open Static

namespace Machine

/-- A state in which nothing went wrong that the static pass should have prevented. -/
structure Safe (c : Setting) (m : Machine) : Prop where
  failure : ∀ f, m.control = .failing f → f.Admissible
  returns : ∀ a, m.control = .returning a →
    ∃ scope initialized, Frame.leaveCall scope initialized ∈ m.frames
  receiver : ∀ id keyword, m.control = .evaluate (.this id keyword) →
    ∃ d o, c.distances.lookup id = some d ∧
      m.store.scopes.getAt m.scope d keyword.lexeme = .ok (.object o)
  heritage : ∀ id keyword method, m.control = .evaluate (.super id keyword method) →
    ∃ d base o, c.distances.lookup id = some d ∧
      m.store.scopes.getAt m.scope d "super" = .ok (.cls base) ∧
      m.store.scopes.getAt m.scope (d - 1) "this" = .ok (.object o)
  ended : m.isOver = true → m.outcome = .done ∨ ∃ f, m.outcome = .failed f ∧ f.Admissible

variable {G : Occurrence → Prop} {shape : List Origin} {c : Setting} {m : Machine}
  {p : Static.Site}

theorem leaveCall_mem {w : World} {demand : Demand} {e : ScopeId} {frames : List Frame}
    (fit : FramesFit w demand e frames) (inside : demand.place.context.function ≠ .topLevel) :
    ∃ scope initialized, Frame.leaveCall scope initialized ∈ frames := by
  induction fit with
  | nil => exact absurd rfl inside
  | @leaveCall _ _ _ _ caller initialized _ _ _ _ _ =>
    exact ⟨caller, initialized, List.mem_cons_self⟩
  | expression _ _ _ ih | statement _ _ ih | define _ _ ih | heritage _ _ _ ih
  | again _ _ _ _ ih | sequence _ _ ih | leaveBlock _ _ ih =>
    obtain ⟨scope, initialized, member⟩ := ih inside
    exact ⟨scope, initialized, List.mem_cons_of_mem _ member⟩

theorem receiver_of_fits (resolves : Resolves c.distances G) {id : NodeId} {keyword : Token}
    (store : m.store.Fits G shape) (stands : m.Stands G shape p)
    (fits : (Expr.this id keyword).Fits G p) :
    ∃ d o, c.distances.lookup id = some d ∧
      m.store.scopes.getAt m.scope d keyword.lexeme = .ok (.object o) := by
  obtain ⟨same, readable, known⟩ := fits
  obtain ⟨d, located⟩ := Option.isSome_iff_exists.mp known
  have inner : p.levels ≠ [] := by
    intro empty
    rw [empty] at located
    cases located
  rw [← same] at located
  obtain ⟨target, _, _, outward, enclosing, _, _, _, bound⟩ := stands.located located
  obtain ⟨a, found⟩ := Forest.contains_iff_get.mp (bound (readable.2 inner))
  rw [same] at found
  obtain ⟨o, rfl⟩ := store.objects target a (store.ne_globals enclosing) found
  refine ⟨Int.ofNat d, o, ?_, ?_⟩
  · rw [resolves id keyword p.levels readable.1, located, Option.map_some]
  · rw [Forest.getAt_eq_get outward, same]
    exact found

theorem safe_of_fits (resolves : Resolves c.distances G) (fits : m.Fits G shape) : m.Safe c := by
  refine ⟨?_, ?_, ?_, ?_, fun halted => (Session.over_of_fits fits halted).2⟩
  · intro f failing
    cases fits with
    | failing _ control _ admissible =>
      cases control.symm.trans failing
      exact admissible
    | evaluate _ control | execute _ _ control | value _ control | done _ _ control
    | returning _ _ control => cases control.symm.trans failing
  · intro a returning
    cases fits with
    | returning context levels control expects inside _ => exact leaveCall_mem expects.frames inside
    | evaluate _ control | execute _ _ control | value _ control | done _ _ control
    | failing _ control => cases control.symm.trans returning
  · intro id keyword evaluating
    cases fits with
    | evaluate p control expects stands fits _ =>
      cases control.symm.trans evaluating
      exact receiver_of_fits resolves expects.store stands fits
    | execute _ _ control | value _ control | done _ _ control | returning _ _ control
    | failing _ control => cases control.symm.trans evaluating
  · intro id keyword method evaluating
    cases fits with
    | evaluate p control expects stands fits _ =>
      cases control.symm.trans evaluating
      obtain ⟨same, known, _, knows, object_free, class_free⟩ := fits
      exact heritage_found resolves expects.store stands same known knows object_free class_free
    | execute _ _ control | value _ control | done _ _ control | returning _ _ control
    | failing _ control => cases control.symm.trans evaluating

end Machine

namespace Session

theorem outcome_of_not_over {m : Machine} (halted : m.isOver = false) : m.outcome = .unfinished := by
  unfold Machine.isOver at halted
  unfold Machine.outcome
  split <;> simp_all

/-- An accepted program is safe at every point of its run, and it is run to its end, to a failure
that is allowed, or as far as the steps go. -/
theorem safe_of_reachable {programs : List (List Stmt)} {held : List Value} {s : Session}
    {source : String} {program : List Stmt} {ds : Distances} (reached : Reachable programs held s)
    (accepted : s.Accepts source program ds) :
    (∀ depth n, (s.point depth program ds n).Safe (s.setting depth ds)) ∧
      ∀ limits, ∃ t r, s.run limits source = (t, .ok r) ∧
        (r.outcome = .done ∨ (∃ f, r.outcome = .failed f ∧ f.Admissible) ∨
          r.outcome = .unfinished) := by
  have sound := sound_of_reachable reached
  have safe : ∀ depth n, (s.point depth program ds n).Safe (s.setting depth ds) := by
    intro depth n
    obtain ⟨shape, fits, _⟩ := accepted.fits sound depth n
    exact Machine.safe_of_fits (accepted.resolves sound) fits
  refine ⟨safe, fun limits => ⟨_, _, run_of_accepts accepted limits, ?_⟩⟩
  cases halted : (s.point limits.depth program ds limits.steps).isOver with
  | true => exact ((safe limits.depth limits.steps).ended halted).imp id .inl
  | false => exact .inr (.inr (outcome_of_not_over halted))

/-- A method that calls one of its superclass, which returns its object. -/
theorem safe_of_super :
    let source :=
      "class A { m() { return this; } } class B < A { m() { return super.m(); } } print B().m();"
    ∃ program ds, (empty "main").Accepts source program ds ∧
      (∀ depth n, ((empty "main").point depth program ds n).Safe ((empty "main").setting depth ds)) ∧
      ∀ limits, ∃ t r, (empty "main").run limits source = (t, .ok r) ∧
        (r.outcome = .done ∨ (∃ f, r.outcome = .failed f ∧ f.Admissible) ∨
          r.outcome = .unfinished) := by
  intro source
  have check : (empty "main").isAccepted source = true := by decide +kernel
  obtain ⟨program, ds, accepted⟩ := exists_accepts check
  exact ⟨program, ds, accepted, safe_of_reachable (.empty "main") accepted⟩

end Session

end LoxMachine
