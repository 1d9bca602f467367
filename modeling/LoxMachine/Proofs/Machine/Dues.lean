import LoxMachine.Proofs.Machine.Bindings
import LoxMachine.Proofs.Machine.TopLevel

namespace LoxMachine

open Static

def Control.declared : Control → List Token
  | execute s => s.declared
  | evaluate _ | value _ | done | returning _ | failing _ => []

def duesIn (e : ScopeId) (declared : List Token) : List (ScopeId × String) :=
  declared.map fun t => (e, t.lexeme)

def duesOf : ScopeId → List Frame → List (ScopeId × String)
  | _, [] => []
  | e, frame :: rest => duesIn e frame.declared ++ duesOf (frame.scopeAfter e) rest

theorem duesIn_scope {e : ScopeId} {declared : List Token} {due : ScopeId × String}
    (member : due ∈ duesIn e declared) : due.1 = e := by
  obtain ⟨_, _, rfl⟩ := List.mem_map.mp member
  rfl

theorem nodup_duesIn {e : ScopeId} {declared : List Token}
    (distinct : (declared.map (·.lexeme)).Nodup) : (duesIn e declared).Nodup := by
  have names : (duesIn e declared).map Prod.snd = declared.map (·.lexeme) := by
    rw [duesIn, List.map_map]
    rfl
  exact List.Nodup.of_map Prod.snd (names ▸ distinct)

theorem duesOf_inside {i : Inventory} {e : ScopeId} {frames : List Frame} (here : e < i.scopes)
    (made : ∀ frame ∈ frames, frame.Made i) {due : ScopeId × String}
    (member : due ∈ duesOf e frames) : due.1 < i.scopes := by
  induction frames generalizing e with
  | nil => cases member
  | cons frame rest ih =>
    obtain ⟨first, others⟩ := List.forall_mem_cons.mp made
    rcases List.mem_append.mp member with now | later
    · exact duesIn_scope now ▸ here
    · refine ih ?_ others later
      cases frame with
      | leaveBlock scope => exact first
      | leaveCall scope initialized => exact first.1
      | _ => exact here

structure Frame.Resumes (frame : Frame) : Prop where
  scope : ∀ e, frame.scopeAfter e = e
  silent : ∀ condition body, frame = .test condition body → body.declared = []

namespace Machine

def waiting (m : Machine) : List (ScopeId × String) := duesOf m.scope m.frames

def dues (m : Machine) : List (ScopeId × String) :=
  duesIn m.scope m.control.declared ++ m.waiting

/-- A step opens a scope for a body that declares the tokens. -/
inductive Opens (c : Setting) (m : Machine) : ScopeId → List Token → Prop
  | block {id body} (control : m.control = .execute (.block id body)) :
      Opens c m m.store.scopes.scopes.size (body.flatMap Stmt.declared)
  | call {base f arguments} (calls : m.Calls base (.closure f) arguments)
      (room : base.depth < c.depthLimit) :
      Opens c m base.store.scopes.scopes.size (f.decl.body.flatMap Stmt.declared)

variable {c : Setting} {m n base : Machine} {dues : List (ScopeId × String)}

theorem grows_of_calls {target : Callable} {arguments : List Value}
    (calls : m.Calls base target arguments) : m.Grows base := by
  induction calls with
  | first | last => exact .refl _
  | @initializer base k arguments method called found ih =>
    let made := base.store.instantiate k
    have bound : made.1.Becomes (base.initializing k method).1.store :=
      Store.becomes_bind made.1 method (.object made.2)
    exact ih.trans bound.extends

theorem older_of_opens {e : ScopeId} {declared : List Token} (opens : m.Opens c e declared) :
    m.store.scopes.scopes.size ≤ e := by
  cases opens with
  | block control => exact Nat.le_refl _
  | call calls room => exact (grows_of_calls calls).size

/-- What is to be declared is no more than the dues, or it is more by what a body declares that a
scope was opened for. -/
def Owes (c : Setting) (m n : Machine) (dues : List (ScopeId × String)) : Prop :=
  n.dues.Sublist dues ∨
    ∃ e declared, m.Opens c e declared ∧ n.dues.Sublist (duesIn e declared ++ dues)

theorem Owes.same (same : n.dues = dues) : m.Owes c n dues := .inl (same ▸ .refl _)

theorem Owes.fewer {many : List (ScopeId × String)} (owes : m.Owes c n dues)
    (fewer : dues.Sublist many) : m.Owes c n many := by
  rcases owes with kept | ⟨e, declared, opens, more⟩
  · exact .inl (kept.trans fewer)
  · exact .inr ⟨e, declared, opens, more.trans ((List.Sublist.refl _).append fewer)⟩

theorem dues_idle (silent : m.control.declared = []) : m.dues = m.waiting := by
  rw [Machine.dues, silent]
  rfl

theorem Quiet.dues_eq (quiet : m.Quiet n) : n.dues = m.waiting := by
  have silent : n.control.declared = [] := by
    have idle := quiet.control
    cases control : n.control with
    | execute s => cases control ▸ idle
    | _ => rfl
  rw [dues_idle silent, waiting, waiting, quiet.frames, quiet.scope]

theorem dues_callHost (m : Machine) (f : Native) (arguments : List Value) :
    (m.callHost f arguments).dues = m.waiting := by
  unfold callHost
  dsimp only
  split <;> rfl

theorem dues_evaluate (c : Setting) (m : Machine) (e : Expr) :
    (evaluate c m e).dues = m.waiting := by
  cases e with
  | read use => exact (quiet_lookUp c m _ _).dues_eq
  | this id keyword => exact (quiet_lookUp c m _ _).dues_eq
  | super id keyword method => exact (quiet_lookUpSuper c m _ _).dues_eq
  | _ => rfl

theorem owes_enter {f : Closure} {arguments : List Value}
    (calls : m.Calls base (.closure f) arguments) :
    m.Owes c (enter c base f arguments) base.waiting := by
  unfold enter
  split
  · exact .same rfl
  · rename_i room
    exact .inr ⟨_, _, .call calls (Nat.lt_of_not_le room), .refl _⟩

theorem owes_invoke {target : Callable} {arguments : List Value}
    (calls : m.Calls base target arguments) :
    m.Owes c (invoke c base target arguments) base.waiting := by
  cases target with
  | closure f => exact owes_enter calls
  | native f => exact .same (dues_callHost base f arguments)
  | cls k =>
    cases found : k.initializer with
    | none =>
      rw [invoke, instantiate, found]
      exact .same rfl
    | some method =>
      rw [invoke, instantiate, found]
      -- the frame that waits with the new object declares nothing
      exact owes_enter (.initializer calls found)

theorem owes_supply {v : Value} {callee : Expr} {paren : Token} {given : List Value}
    {rest : List Expr} (supplies : m.Supplies base v callee paren given rest) :
    m.Owes c (supply c base v callee paren given rest) base.waiting := by
  cases rest with
  | cons e rest => exact .same rfl
  | nil =>
    rcases call_cases c base callee paren v given.reverse with
      ⟨_, failed⟩ | ⟨target, callable, right, called⟩
    · rw [supply, failed]
      exact .same rfl
    · rw [supply, called]
      exact owes_invoke (calls_of_supplies supplies callable right)

theorem owes_execute {s : Stmt} (control : m.control = .execute s) :
    m.Owes c (execute m s) (duesIn m.scope s.declared ++ m.waiting) := by
  cases s with
  | expression _ e | print _ e | loop _ e _ => exact .same rfl
  | branch _ e yes no => cases no <;> exact .same rfl
  | var _ name initializer =>
    cases initializer with
    | none => exact .inl (List.sublist_append_right _ _)
    | some e => exact .same rfl
  | block id body => exact .inr ⟨_, _, .block control, .refl _⟩
  | function decl => exact .inl (List.sublist_append_right _ _)
  | returns _ _ value => cases value <;> exact .same rfl
  | classDecl _ name superclass methods =>
    cases superclass with
    | none => exact .inl (List.sublist_append_right _ _)
    | some base => exact .same rfl

theorem owes_resume {a : Value} {frame : Frame} {rest : List Frame} (control : m.control = .value a)
    (frames : m.frames = frame :: rest) (resumes : frame.Resumes) :
    m.Owes c (resume c { m with frames := rest } a frame)
      (duesIn m.scope frame.declared ++ duesOf (frame.scopeAfter m.scope) rest) := by
  rw [resumes.scope]
  have quiet : ∀ {n : Machine}, n.dues = duesOf m.scope rest →
      m.Owes c n (duesIn m.scope frame.declared ++ duesOf m.scope rest) :=
    fun same => (Owes.same same).fewer (List.sublist_append_right _ _)
  cases frame with
  | assign id name => exact quiet (quiet_assignTo c _ id name a).dues_eq
  | operand _ | rightOperand _ _ _ _ => exact quiet (quiet_giveResult _ _).dues_eq
  | shortcut operator right =>
    rw [resume]
    split <;> exact quiet rfl
  | callee callee paren arguments => exact owes_supply (.first control frames)
  | argument v callee paren given arguments => exact owes_supply (.next control frames)
  | property name => exact quiet (quiet_readProperty _ name a).dues_eq
  | target name value => cases a <;> exact quiet rfl
  | choose yes no =>
    cases no with
    | none =>
      rw [resume]
      split
      · exact .same rfl
      · exact quiet rfl
    | some s =>
      rw [resume]
      have parts : duesIn m.scope (yes.declared ++ s.declared) =
          duesIn m.scope yes.declared ++ duesIn m.scope s.declared := List.map_append
      change m.Owes c _ (duesIn m.scope (yes.declared ++ s.declared) ++ duesOf m.scope rest)
      rw [parts]
      -- what the other branch declares is not due any more
      split
      · exact .inl ((List.sublist_append_left _ _).append (.refl _))
      · exact .inl ((List.sublist_append_right _ _).append (.refl _))
  | test condition body =>
    have none := resumes.silent condition body rfl
    rw [resume]
    split
    · apply quiet
      change duesIn m.scope body.declared ++ (duesIn m.scope body.declared ++ _) = _
      rw [none]
      rfl
    · exact quiet rfl
  | heritage superclass name methods =>
    cases a with
    | cls base => exact quiet (quiet_defineClass _ name (some base) methods).dues_eq
    | _ => exact quiet rfl
  | again _ _ | sequence _ | leaveBlock _ | leaveCall _ _ =>
    exact quiet (dues_idle (m := { m with frames := rest }) (control ▸ rfl))
  | _ => exact quiet rfl

theorem dues_proceed (silent : m.control.declared = []) (frame : Frame) :
    (proceed m frame).dues.Sublist
      (duesIn m.scope frame.declared ++ duesOf (frame.scopeAfter m.scope) m.frames) := by
  cases frame with
  | sequence statements =>
    cases statements with
    | nil => exact dues_idle silent ▸ .refl _
    | cons s rest =>
      have parts : duesIn m.scope (s.declared ++ rest.flatMap Stmt.declared) =
          duesIn m.scope s.declared ++ duesIn m.scope (rest.flatMap Stmt.declared) :=
        List.map_append
      change List.Sublist (duesIn m.scope s.declared ++
        (duesIn m.scope (rest.flatMap Stmt.declared) ++ duesOf m.scope m.frames)) _
      rw [← List.append_assoc, ← parts]
      exact .refl _
  | leaveCall scope initialized =>
    exact (quiet_leaveCall m scope initialized .nil).dues_eq ▸ .refl _
  | leaveBlock scope => exact dues_idle (m := { m with scope }) silent ▸ .refl _
  | again condition body => exact .refl _
  | _ => exact dues_idle silent ▸ List.sublist_append_right _ _

theorem dues_passReturn (silent : m.control.declared = []) (a : Value) (frame : Frame) :
    (passReturn m a frame).dues = duesOf (frame.scopeAfter m.scope) m.frames := by
  cases frame with
  | leaveCall scope initialized => exact (quiet_leaveCall m scope initialized a).dues_eq
  | leaveBlock scope => exact dues_idle (m := { m with scope }) silent
  | _ => exact dues_idle silent

theorem dues_passFailure (silent : m.control.declared = []) (frame : Frame) :
    (passFailure m frame).dues = duesOf (frame.scopeAfter m.scope) m.frames := by
  cases frame with
  | leaveCall scope _ => exact dues_idle (m := { m with scope, depth := m.depth - 1 }) silent
  | leaveBlock scope => exact dues_idle (m := { m with scope }) silent
  | _ => exact dues_idle silent

/-- A step puts up no declarations but those of a body that it opens a scope for. -/
theorem owes_step (resumes : ∀ a frame rest, m.control = .value a →
    m.frames = frame :: rest → frame.Resumes) :
    m.Owes c (step c m) m.dues := by
  have taken : ∀ {frame rest}, m.frames = frame :: rest → m.control.declared = [] →
      m.dues = duesIn m.scope frame.declared ++ duesOf (frame.scopeAfter m.scope) rest := by
    intro frame rest frames idle
    rw [dues_idle idle, waiting, frames]
    rfl
  cases control : m.control with
  | evaluate e =>
    simp only [step, control]
    exact .same ((dues_evaluate c m e).trans (dues_idle (control ▸ rfl)).symm)
  | execute s =>
    simp only [step, control]
    rw [Machine.dues, control]
    exact owes_execute control
  | value a =>
    cases frames : m.frames with
    | nil =>
      simp only [step, control, frames]
      exact .same rfl
    | cons frame rest =>
      have begun : step c m = resume c { m with frames := rest } a frame := by
        simp only [step, control, frames]
      rw [begun, taken frames (control ▸ rfl)]
      exact owes_resume control frames (resumes a frame rest control frames)
  | done =>
    have idle : m.control.declared = [] := control ▸ rfl
    cases frames : m.frames with
    | nil =>
      simp only [step, control, frames]
      exact .same rfl
    | cons frame rest =>
      have begun : step c m = proceed { m with frames := rest } frame := by
        simp only [step, control, frames]
      rw [begun, taken frames idle]
      exact .inl (dues_proceed (m := { m with frames := rest }) idle frame)
  | returning a =>
    have idle : m.control.declared = [] := control ▸ rfl
    cases frames : m.frames with
    | nil =>
      simp only [step, control, frames]
      exact .same rfl
    | cons frame rest =>
      have begun : step c m = passReturn { m with frames := rest } a frame := by
        simp only [step, control, frames]
      rw [begun, taken frames idle]
      exact (Owes.same (dues_passReturn (m := { m with frames := rest }) idle a frame)).fewer
        (List.sublist_append_right _ _)
  | failing g =>
    have idle : m.control.declared = [] := control ▸ rfl
    cases frames : m.frames with
    | nil =>
      simp only [step, control, frames]
      exact .same rfl
    | cons frame rest =>
      have begun : step c m = passFailure { m with frames := rest } frame := by
        simp only [step, control, frames]
      rw [begun, taken frames idle]
      exact (Owes.same (dues_passFailure (m := { m with frames := rest }) idle frame)).fewer
        (List.sublist_append_right _ _)

theorem dues_of_completes {e : ScopeId} {name : String} {a : Value}
    (completes : m.Completes c e name a) (older : e < m.store.scopes.scopes.size) :
    ((e, name) :: (step c m).dues).Sublist m.dues := by
  cases completes with
  | «variable» control | function control | plain control =>
    simp only [step, control, Machine.dues]
    exact .refl _
  | initialized control frames =>
    simp only [step, control, frames, Machine.dues, waiting]
    exact .refl _
  | derived control frames =>
    simp only [step, control, frames, Machine.dues, waiting]
    exact .refl _
  | parameter calls room bound => exact absurd older (Nat.not_lt.mpr (grows_of_calls calls).size)

theorem resumes_of_fits {G : Occurrence → Prop} {shape : List Origin} (fits : m.Fits G shape)
    {a : Value} {frame : Frame} {rest : List Frame} (control : m.control = .value a)
    (frames : m.frames = frame :: rest) : frame.Resumes := by
  cases fits with
  | value p at_phrase expects stands fits =>
    have waits := expects.frames
    rw [frames] at waits
    cases waits with
    | expression announced fits others =>
      cases frame with
      | test | leaveBlock | leaveCall => exact fits.elim
      | _ => exact ⟨fun _ => rfl, by rintro _ _ ⟨⟩⟩
    | statement fits others =>
      cases frame with
      | leaveBlock | leaveCall => exact fits.elim
      | test condition body =>
        refine ⟨fun _ => rfl, ?_⟩
        rintro _ _ ⟨⟩
        exact fits.2.2
      | _ => exact ⟨fun _ => rfl, by rintro _ _ ⟨⟩⟩
    | define | heritage => exact ⟨fun _ => rfl, by rintro _ _ ⟨⟩⟩
  | evaluate _ at_phrase | execute _ _ at_phrase | done _ _ at_phrase | returning _ _ at_phrase
  | failing _ at_phrase => cases at_phrase.symm.trans control

/-- What is known of every state of a run: its scopes are there, and where names are declared they
differ. -/
structure Declarative (c : Setting) (m : Machine) : Prop where
  scope : m.scope < m.store.scopes.scopes.size
  dues : ∀ due ∈ m.dues, due.1 < m.store.scopes.scopes.size
  resumes : ∀ a frame rest, m.control = .value a → m.frames = frame :: rest → frame.Resumes
  blocks : ∀ id body, m.control = .execute (.block id body) → (namesOf body).Nodup
  bodies : ∀ base f arguments, m.Calls base (.closure f) arguments →
    (f.decl.params.map (·.lexeme) ++ namesOf f.decl.body).Nodup

variable (declarative : m.Declarative c) {e : ScopeId}

include declarative

theorem Declarative.params {f : Closure} {arguments : List Value}
    (calls : m.Calls base (.closure f) arguments) : (f.decl.params.map (·.lexeme)).Nodup :=
  (List.nodup_append.mp (declarative.bodies _ _ _ calls)).1

theorem Declarative.distinct {declared : List Token} (opens : m.Opens c e declared) :
    (((step c m).store.scopes.bindings e).names ++ declared.map (·.lexeme)).Nodup := by
  cases opens with
  | @block id body control =>
    have empty : (step c m).store.scopes.bindings m.store.scopes.scopes.size = [] := by
      simp only [step, control]
      refine (m.store.scopes.bindings_grow _ _).trans ?_
      rw [Forest.bindings, Array.getElem?_eq_none (Nat.le_refl _)]
    rw [empty]
    exact declarative.blocks id body control
  | @call base f arguments calls room =>
    have begins := begins_of_calls calls room (declarative.params calls)
    rw [← begins.new, begins.names]
    exact declarative.bodies base f arguments calls

theorem Declarative.bound {name : String} {a : Value} (completes : m.Completes c e name a) :
    (step c m).store.scopes.contains e name = true :=
  Forest.contains_iff_get.mpr ⟨a, get_of_completes declarative.scope
    (fun _ _ _ calls => declarative.params calls) completes⟩

theorem Declarative.count_older (name : String) (there : e < m.store.scopes.scopes.size) :
    (step c m).dues.count (e, name) ≤ m.dues.count (e, name) := by
  rcases owes_step declarative.resumes with kept | ⟨new, declared, opens, more⟩
  · exact kept.count_le _
  · have none : (duesIn new declared).count (e, name) = 0 := by
      apply List.count_eq_zero.mpr
      intro member
      have same : e = new := duesIn_scope member
      exact absurd there (Nat.not_lt.mpr (same ▸ older_of_opens opens))
    have least := more.count_le (e, name)
    rwa [List.count_append, none, Nat.zero_add] at least

theorem Declarative.count_new (name : String) (new : m.store.scopes.scopes.size ≤ e) :
    (step c m).dues.count (e, name) ≤ 1 ∧
      ((step c m).store.scopes.contains e name = true → (e, name) ∉ (step c m).dues) := by
  have absent : (e, name) ∉ m.dues := fun member =>
    absurd (declarative.dues _ member) (Nat.not_lt.mpr new)
  rcases owes_step declarative.resumes with kept | ⟨own, declared, opens, more⟩
  · have still : (e, name) ∉ (step c m).dues := fun member => absent (kept.subset member)
    have none : (step c m).dues.count (e, name) = 0 := List.count_eq_zero.mpr still
    exact ⟨none ▸ Nat.zero_le 1, fun _ => still⟩
  · obtain ⟨_, names, apart⟩ := List.nodup_append.mp (declarative.distinct opens)
    constructor
    · have least := more.count_le (e, name)
      rw [List.count_append, List.count_eq_zero.mpr absent] at least
      exact Nat.le_trans least (List.nodup_iff_count_le_one.mp (nodup_duesIn names) _)
    · intro bound member
      rcases List.mem_append.mp (more.subset member) with here | before
      · obtain ⟨t, declares, same⟩ := List.mem_map.mp here
        cases same
        obtain ⟨a, found⟩ := Option.isSome_iff_exists.mp bound
        exact apart _ (List.mem_map_of_mem (Table.mem_of_get? found)) _
          (List.mem_map_of_mem declares) rfl
      · exact absent before

end Machine

end LoxMachine
