import LoxMachine.Proofs.Machine.Phrases
import LoxMachine.Proofs.Recode.Renaming
import LoxMachine.Proofs.Scope.Assigned
import LoxMachine.Proofs.Session.Completions

namespace LoxMachine

open Static

/-- The static pass binds no assignment of the programs to the name in the scope. -/
def Static.NeverAssigned (programs : List (List Stmt)) (origin : Origin) (name : String) : Prop :=
  ∀ body ∈ programs, ∀ around id token value, Evaluates body around (.assign id token value) →
    token.lexeme = name → ∀ levels, Among programs (.use id token levels) →
      foundIn levels name ≠ some origin

theorem Static.NeverAssigned.older {programs : List (List Stmt)} {program : List Stmt}
    {origin : Origin} {name : String} (constant : NeverAssigned (program :: programs) origin name) :
    NeverAssigned programs origin name :=
  fun body member around id token value evaluates same levels used =>
    constant body (List.mem_cons_of_mem _ member) around id token value evaluates same levels
      (among_cons.mpr (.inr used))

theorem Static.neverAssigned_of_absent {programs : List (List Stmt)} {name : String}
    (absent : ∀ body ∈ programs, ∀ token ∈ stmtsAssigned body, token.lexeme ≠ name)
    (origin : Origin) : NeverAssigned programs origin name :=
  fun body member _ _ token _ evaluates same _ _ _ =>
    absent body member token (mem_assigned_of_evaluates evaluates) same

theorem Static.Origin.Known.scope {G : Occurrence → Prop} {origin : Origin} {id : NodeId}
    (known : origin.Known G) (opener : origin.id? = some id) : G (.scope origin) := by
  cases origin with
  | block | function => exact known
  | global | receiver | heritage => cases opener

namespace Machine

/-- What an assignment of a run finds at its distance is a scope of the text that the static pass
binds the assignment to. -/
theorem found_of_assigns {G : Occurrence → Prop} {w : Past} {c : Setting} {m : Machine}
    (resolves : Resolves c.distances G) (fits : m.Fits G w.shape) (phrased : m.Phrased w)
    {e : ScopeId} {name : String} (assigns : m.Assigns c e name) :
    ∃ id token levels origin, w.Writes id token ∧ token.lexeme = name ∧
      G (.use id token levels) ∧ foundIn levels name = some origin ∧ w.shape[e]? = some origin := by
  obtain ⟨control, frames, distance, found⟩ := assigns
  rename_i id token rest a d
  have written := phrased.frames (.assign id token) (frames ▸ List.mem_cons_self)
  cases fits with
  | value p _ expects stands _ =>
    have waits := expects.frames
    rw [frames] at waits
    cases waits with
    | statement waits others => exact waits.elim
    | expression announced waits others =>
      -- the distance is the one that the pass found, and the levels stand for the scopes around
      rw [resolves id token p.levels waits.2] at distance
      obtain ⟨k, located, rfl⟩ := Option.map_eq_some_iff.mp distance
      obtain ⟨target, _, level, outward, _, here, opened, _⟩ := stands.located located
      cases (Forest.ancestor_of_outward (d := k) outward).symm.trans found
      refine ⟨id, token, p.levels, level.origin, written, rfl, waits.2, ?_, opened⟩
      rw [foundIn, located, Option.bind_some, here, Option.map_some]
  | evaluate _ at_phrase | execute _ _ at_phrase | done _ _ at_phrase | returning _ _ at_phrase
  | failing _ at_phrase => cases at_phrase.symm.trans control

theorem step_of_read {c : Setting} {m : Machine} {use : Variable} {d : Nat} {target : ScopeId}
    {a : Value} (control : m.control = .evaluate (.read use))
    (distance : c.distances.lookup use.id = some (Int.ofNat d))
    (outward : m.store.scopes.outward d m.scope = some target)
    (found : m.store.scopes.get target use.name.lexeme = .ok a) : step c m = m.give a := by
  have read : m.store.scopes.getAt m.scope (Int.ofNat d) use.name.lexeme = .ok a :=
    (Forest.getAt_eq_get outward).trans found
  simp only [step, control, evaluate, lookUp, distance, read, giveBound]

end Machine

namespace Session

/-- In every scope that the text opened, the name stands for what its declaration was completed
with. -/
def Constant (origin : Origin) (name : String) (past : List Event) (s : Store) : Prop :=
  ∀ e o a, (ledgerOf past)[e]? = some o → o.origin = origin → s.scopes.get e name = .ok a →
    ∃ c m, .step c m ∈ past ∧ m.Completes c e name a

variable {past : List Event} {e : ScopeId} {name : String} {a : Value} {c : Setting} {m : Machine}
  {origin : Origin}

theorem ledgerOf_append (past more : List Event) :
    ledgerOf (past ++ more) = ledgerOf past ++ more.flatMap Event.openings := by
  rw [ledgerOf, List.flatMap_append]
  rfl

theorem Constant.step (constant : Constant origin name past m.store)
    (declarative : m.Declarative c)
    (sized : (ledgerOf past).length = m.store.scopes.scopes.size)
    (inner : origin ≠ .global) (ordinary : name ≠ "this" ∧ name ≠ "super")
    (unassigned : ∀ e, m.Assigns c e name → ∀ o, (ledgerOf past)[e]? = some o → o.origin ≠ origin)
    (reached : ∀ e, m.Assigns c e name → e < m.store.scopes.scopes.size) :
    Constant origin name (past ++ [.step c m]) (Machine.step c m).store := by
  intro e o a opened same found
  have earlier : ∀ {c' m'}, .step c' m' ∈ past → .step c' m' ∈ past ++ [.step c m] :=
    fun member => List.mem_append_left _ member
  have old : e < m.store.scopes.scopes.size → (ledgerOf past)[e]? = some o := by
    intro there
    rwa [ledgerOf_append, List.getElem?_append_left (sized ▸ there)] at opened
  by_cases completes : ∃ b, m.Completes c e name b
  · obtain ⟨b, completes⟩ := completes
    have bound := Machine.get_of_completes declarative.scope
      (fun _ _ _ calls => declarative.params calls) completes
    cases bound.symm.trans found
    exact ⟨c, m, List.mem_append_right _ (List.mem_singleton_self _), completes⟩
  · -- otherwise the value was there before; the name was not assigned and is not bound elsewise
    rcases Machine.alters_step c m e name a found with before | now | assigned | rfl | this | super
    · have there := Forest.lt_size_of_contains (Forest.contains_iff_get.mpr ⟨a, before⟩)
      obtain ⟨c', m', member, stored⟩ := constant e o a (old there) same before
      exact ⟨c', m', earlier member, stored⟩
    · exact absurd now completes
    · exact absurd same (unassigned e assigned o (old (reached e assigned)))
    · have outermost : (ledgerOf (past ++ [.step c m]))[Store.globals]? = some .global := rfl
      cases outermost.symm.trans opened
      exact absurd same.symm inner
    · exact absurd this ordinary.1
    · exact absurd super ordinary.2

variable {programs : List (List Stmt)} {held : List Value} {s : Session} {events : List Event}
  {source : String} {program : List Stmt} {ds : Distances} {depth n : Nat}

theorem phrased_point (history : History programs held s events)
    (accepted : s.Accepts source program ds) (ledger : List Opening) :
    (s.point depth program ds n).Phrased ⟨program :: programs, ledger⟩ := by
  have sound := sound_of_reachable (reachable_of_history history)
  have accounts := (accounts_of_records (records_of_history history)).1
  have start : (s.machine .done [.sequence program]).Phrased ⟨program :: programs, ledger⟩ :=
    ⟨True.intro, List.forall_mem_singleton.mpr True.intro⟩
  apply start.run
  intro j _ st control
  obtain ⟨_, recorded, _⟩ := accepted.recorded sound accounts depth j
  have written := recorded.control
  unfold point at written
  rw [control] at written
  exact written

theorem constant_point (history : History programs held s events)
    (accepted : s.Accepts source program ds) (constant : Constant origin name events s.store)
    (inner : origin ≠ .global) (ordinary : name ≠ "this" ∧ name ≠ "super")
    (unassigned : NeverAssigned (program :: programs) origin name) (depth n : Nat) :
    Constant origin name (s.eventsAt depth program ds n events)
      (s.point depth program ds n).store := by
  have sound := sound_of_reachable (reachable_of_history history)
  have accounts := (accounts_of_records (records_of_history history)).1
  refine holds_eventsAt (P := fun past m => Constant origin name past m.store) constant
    (fun k before => ?_) n
  obtain ⟨fits, recorded, _⟩ := accepted.recorded sound accounts depth k
  have sized := recorded.store.sized
  change (s.ledgerAt depth program ds k (ledgerOf events)).length = _ at sized
  rw [← ledgerOf_eventsAt] at sized
  have found := fun e (assigns : Machine.Assigns (s.setting depth ds) _ e name) =>
    Machine.found_of_assigns (accepted.resolves sound) fits (phrased_point history accepted _)
      assigns
  refine before.step (declarative_point history accepted depth k) sized inner ordinary ?_ ?_
  · intro e assigns o opened same
    obtain ⟨id, token, levels, level, written, named, used, bound, shape⟩ := found e assigns
    obtain ⟨body, member, around, value, evaluates⟩ := written
    apply unassigned body member around id token value evaluates named levels used
    rw [ledgerOf_eventsAt] at opened
    have opening := Past.shape_of_opening (w := ⟨program :: programs, _⟩) opened
    cases opening.symm.trans shape
    exact bound.trans (congrArg some same)
  · intro e assigns
    obtain ⟨_, _, _, _, _, _, _, _, shape⟩ := found e assigns
    obtain ⟨inside, _⟩ := List.getElem?_eq_some_iff.mp shape
    rw [fits.store.sized] at inside
    exact inside

theorem constant_of_history (history : History programs held s events) (inner : origin ≠ .global)
    (ordinary : name ≠ "this" ∧ name ≠ "super") (unassigned : NeverAssigned programs origin name) :
    Constant origin name events s.store := by
  -- the host itself binds names in the global scope only
  have outside : ∀ {past : List Event} {t : Store} (other : String) (a : Value),
      Constant origin name past t → Constant origin name past (t.define Store.globals other a) := by
    intro past t other a constant e o b opened same found
    rcases Machine.Alters.define (P := fun e _ => e = Store.globals) rfl a e name b found with
      before | rfl
    · exact constant e o b opened same before
    · cases opened
      exact absurd same.symm inner
  induction history with
  | empty file =>
    intro e o a opened same _
    cases List.mem_singleton.mp (List.mem_of_getElem? opened)
    exact absurd same.symm inner
  | keep _ _ ih | entrust _ _ ih => exact ih unassigned
  | setGlobal _ other known ih => exact outside other _ (ih unassigned)
  | @native programs held s events _ other arity function ih =>
    intro e o a opened same found
    rw [ledgerOf_append, List.flatMap_singleton, Event.openings, List.append_nil] at opened
    obtain ⟨c, m, member, completes⟩ := outside other _ (ih unassigned) e o a opened same found
    exact ⟨c, m, List.mem_append_left _ member, completes⟩
  | rejected _ result ih =>
    rw [eq_of_rejected result, read_eq]
    exact ih unassigned
  | ran history limits accepted ended ih =>
    exact constant_point history accepted (ih unassigned.older) inner ordinary unassigned _ _

/-- The value is what the declaration of the name stored in the scope when it was completed, which
happened once. -/
def Stored (past : List Event) (e : ScopeId) (name : String) (a : Value) : Prop :=
  ∃ before c m after, past = before ++ .step c m :: after ∧ m.Completes c e name a ∧
    ∀ event ∈ before ++ after, ¬ event.Completes e name

/-- Whatever a scope of the text binds to the name is what its declaration stored there. -/
theorem stored_of_get (history : History programs held s events)
    (accepted : s.Accepts source program ds) {id : NodeId} {o : Opening}
    (opener : o.origin.id? = some id)
    (unassigned : NeverAssigned (program :: programs) o.origin name)
    (opened : (s.ledgerAt depth program ds n (ledgerOf events))[e]? = some o)
    (found : (s.point depth program ds n).store.scopes.get e name = .ok a) :
    Stored (s.eventsAt depth program ds n events) e name a := by
  have sound := sound_of_reachable (reachable_of_history history)
  have accounts := (accounts_of_records (records_of_history history)).1
  obtain ⟨fits, _, _⟩ := accepted.recorded sound accounts depth n
  have shape := Past.shape_of_opening
    (w := ⟨program :: programs, s.ledgerAt depth program ds n (ledgerOf events)⟩) opened
  have inner : o.origin ≠ .global := by
    intro global
    rw [global] at opener
    cases opener
  have outside : e ≠ Store.globals := by
    rintro rfl
    cases opened
    exact inner rfl
  have bound := Forest.contains_iff_get.mpr ⟨a, found⟩
  have named := fits.store.named e name o.origin outside bound shape
  have known := (fits.store.known _ (List.mem_of_getElem? shape)).scope opener
  have ordinary := ordinary_of_scope accepted sound opener known named
  -- it was constant when the run began, so it is now; and no declaration is completed twice
  have before := constant_of_history history inner ordinary unassigned.older
  have constant := constant_point history accepted before inner ordinary unassigned depth n
  have opening := opened
  rw [← ledgerOf_eventsAt] at opening
  obtain ⟨c, k, member, completes⟩ := constant e o a opening rfl found
  have due := dueOnce_point history accepted (settled_of_history history) outside name depth n
  have once := Nat.le_trans (Nat.le_add_right _ _) due.once
  obtain ⟨first, last, split, none⟩ := only_completion once member ⟨a, completes⟩
  exact ⟨first, c, k, last, split, completes, none⟩

theorem foundIn_eq_some {levels : List Level} (bound : foundIn levels name = some origin) :
    ∃ d level, locate levels name = some d ∧ levels[d]? = some level ∧ level.origin = origin := by
  obtain ⟨level, here, same⟩ := Option.map_eq_some_iff.mp bound
  obtain ⟨d, located, there⟩ := Option.bind_eq_some_iff.mp here
  exact ⟨d, level, located, there, same⟩

/-- A local name to which the static pass binds no assignment is constant. In every run of an
accepted program, a read that it binds to the name gives the value that the declaration stored in
that scope when it was completed, for a parameter the argument; and it was completed there only
once. -/
theorem stored_of_read (history : History programs held s events)
    (accepted : s.Accepts source program ds) {origin : Origin} {id : NodeId}
    (opener : origin.id? = some id) {use : Variable}
    (unassigned : NeverAssigned (program :: programs) origin use.name.lexeme)
    {levels : List Level} (used : Among (program :: programs) (.use use.id use.name levels))
    (bound : foundIn levels use.name.lexeme = some origin) (depth n : Nat)
    (control : (s.point depth program ds n).control = .evaluate (.read use)) :
    let m := s.point depth program ds n
    ∃ d e o a, (s.setting depth ds).distances.lookup use.id = some d ∧
      m.store.scopes.ancestor m.scope d = .ok e ∧
      (s.ledgerAt depth program ds n (ledgerOf events))[e]? = some o ∧ o.origin = origin ∧
      s.point depth program ds (n + 1) = m.give a ∧
      Stored (s.eventsAt depth program ds n events) e use.name.lexeme a := by
  intro m
  have sound := sound_of_reachable (reachable_of_history history)
  have accounts := (accounts_of_records (records_of_history history)).1
  obtain ⟨fits, _, _⟩ := accepted.recorded sound accounts depth n
  obtain ⟨d, level, located, there, rfl⟩ := foundIn_eq_some bound
  cases fits with
  | evaluate p at_phrase expects stands readable _ =>
    cases at_phrase.symm.trans control
    -- the use stands in the text once, so the pass went past it with these levels
    cases accepted.unique sound _ _ use.id used readable.1 rfl rfl
    have inside : p.levels ≠ [] := by
      intro empty
      rw [empty] at there
      cases there
    obtain ⟨target, _, _, outward, _, here, opened, _, filled⟩ := stands.located located
    cases there.symm.trans here
    obtain ⟨a, found⟩ := Forest.contains_iff_get.mp (filled (readable.2 inside))
    obtain ⟨o, opening, same⟩ := Past.opening_of_shape opened
    have distance : (s.setting depth ds).distances.lookup use.id = some (Int.ofNat d) :=
      (accepted.resolves sound _ _ _ readable.1).trans (congrArg (Option.map Int.ofNat) located)
    have next : s.point depth program ds (n + 1) = m.give a :=
      (Machine.run_succ _ _ _).trans (Machine.step_of_read control distance outward found)
    rw [← same] at opener unassigned
    exact ⟨d, target, o, a, distance, Forest.ancestor_of_outward (d := d) outward, opening, same,
      next, stored_of_get history accepted opener unassigned opening found⟩
  | execute _ _ at_phrase | value _ at_phrase | done _ _ at_phrase | returning _ _ at_phrase
  | failing _ at_phrase => cases at_phrase.symm.trans control

/-- A function reads a local variable in whose scope another one is called, with a variable of the
same name around the call. -/
def shadowedProgram : List Stmt :=
  [.block 15
    [.var 2 (firstLine "a") (some (.literal 1 (.bool true))),
      .var 3 (firstLine "b") none,
      .function (.mk 6 (firstLine "f") []
        [.returns 5 ⟨.keyword .returnWord, "return", 1⟩ (some (.read ⟨4, firstLine "a"⟩))]),
      .block 14
        [.var 8 (firstLine "a") (some (.literal 7 .nil)),
          .expression 13 (.assign 12 (firstLine "b")
            (.call 11 (.read ⟨10, firstLine "f"⟩) ⟨.symbol .rightParen, ")", 1⟩ []))]]]

def shadowedText : String :=
  "{ var a = true; var b; fun f() { return a; } { var a = nil; b = f(); } }"

def shadowedPoint (n : Nat) : Machine :=
  (empty "main").point 9 shadowedProgram [(4, 1), (10, 1), (12, 1)] n

/-- The function reads what the outer declaration stored. -/
theorem stored_of_shadowed :
    let ds : Distances := [(4, 1), (10, 1), (12, 1)]
    let origin : Origin := .block 15 ["a", "b", "f"]
    (empty "main").Accepts shadowedText shadowedProgram ds ∧
      NeverAssigned [shadowedProgram] origin "a" ∧
      (shadowedPoint 24).control = .evaluate (.read ⟨4, firstLine "a"⟩) ∧
      ∃ e, Stored ((empty "main").eventsAt 9 shadowedProgram ds 24 []) e "a" (.bool true) := by
  intro ds origin
  have read : (empty "main").read shadowedText =
      ({ empty "main" with nextId := 16 }, .ok shadowedProgram) := by cbv
  have accepted : (empty "main").Accepts shadowedText shadowedProgram ds :=
    ⟨congrArg Prod.snd read, by rfl⟩
  have unassigned : NeverAssigned [shadowedProgram] origin "a" := by
    apply neverAssigned_of_absent
    intro body member token assigned
    cases List.mem_singleton.mp member
    cases List.mem_singleton.mp assigned
    decide
  have control : (shadowedPoint 24).control = .evaluate (.read ⟨4, firstLine "a"⟩) := rfl
  have uses : ∃ levels, (occurrencesOf shadowedProgram)[7]? = some (.use 4 (firstLine "a") levels) ∧
      foundIn levels "a" = some origin := ⟨_, rfl, rfl⟩
  obtain ⟨levels, here, bound⟩ := uses
  have used : Among [shadowedProgram] (.use 4 (firstLine "a") levels) :=
    ⟨shadowedProgram, List.mem_singleton_self _, List.mem_of_getElem? here⟩
  obtain ⟨_, e, _, a, _, _, _, _, next, stored⟩ :=
    stored_of_read (.empty "main") accepted rfl unassigned used bound 9 24 control
  have value : (shadowedPoint 25).control = .value (.bool true) := rfl
  cases (congrArg Machine.control next).symm.trans value
  exact ⟨accepted, unassigned, control, e, stored⟩

end Session

end LoxMachine
