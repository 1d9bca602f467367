import LoxMachine.Proofs.Machine.Names

namespace LoxMachine

open Static

variable {G : Occurrence → Prop}

/-- The name that a variable, a function or a class gets. -/
def Stmt.named? : Stmt → Option Token
  | .var _ name _ | .classDecl _ name _ _ => some name
  | .function decl => some decl.name
  | .expression _ _ | .print _ _ | .block _ _ | .branch _ _ _ _ | .loop _ _ _
  | .returns _ _ _ => none

theorem declared_of_fits {context : Context} {levels : List Level} {s : Stmt}
    (fits : s.Fits G context levels) : s.declared = s.named?.toList := by
  cases s with
  | branch id condition yes no =>
    cases no with
    | none => exact fits.2.2
    | some no => simp only [Stmt.declared, fits.2.1.2, fits.2.2.2, List.append_nil, Stmt.named?,
        Option.toList]
  | loop id condition body => exact fits.2.2
  | _ => rfl

namespace Machine

/-- The next step binds the name of a statement of the top level, and the others follow. A variable
with an initializer is bound after it, and a class with a superclass after that was looked up. -/
inductive Declares (m : Machine) : Stmt → List Stmt → Prop
  | begun {s rest} (control : m.control = .execute s) (frames : m.frames = [.sequence rest]) :
      Declares m s rest
  | initialized {id name e a rest} (control : m.control = .value a)
      (frames : m.frames = [.define name, .sequence rest]) : Declares m (.var id name (some e)) rest
  | inherited {id superclass name use methods a rest} (control : m.control = .value a)
      (frames : m.frames = [.heritage superclass name methods, .sequence rest]) :
      Declares m (.classDecl id name (some use) methods) rest

/-- The next step binds the name for a statement of the top level of the program. -/
def Adds (program : List Stmt) (m : Machine) (name : String) : Prop :=
  ∃ s rest t, s :: rest <:+ program ∧ m.Declares s rest ∧ s.named? = some t ∧ t.lexeme = name

/-- What waits at the top level of the program. -/
inductive Awaits (program : List Stmt) : List Frame → Prop
  | statement {rest} (after : rest <:+ program) : Awaits program [.sequence rest]
  | initializer {id name e rest} (inside : .var id name (some e) :: rest <:+ program) :
      Awaits program [.define name, .sequence rest]
  | superclass {id superclass name use methods rest}
      (inside : .classDecl id name (some use) methods :: rest <:+ program) :
      Awaits program [.heritage superclass name methods, .sequence rest]

def naming (m : Machine) (P : String → Prop) : Extent :=
  .naming fun name => m.store.scopes.contains Store.globals name = true ∨ P name

/-- A state at the top level of the program: before a statement, in a phrase that binds no global
name, or at the end. -/
inductive AtTop (program : List Stmt) (m : Machine) : Prop
  | before {s rest} (inside : s :: rest <:+ program) (control : m.control = .execute s)
      (frames : m.frames = [.sequence rest]) (home : m.scope = Store.globals)
      (filled : 0 < m.store.scopes.scopes.size)
  | within {phrase : Machine} {waiting} (keeps : phrase.Keeps (phrase.naming fun _ => False))
      (waits : Awaits program waiting) (same : m = phrase.above waiting)
  | after (halted : m.isOver = true)

variable {program : List Stmt} {c : Setting} {m phrase : Machine} {shape : List Origin}
  {P : String → Prop}

theorem store_naming (filled : 0 < m.store.scopes.scopes.size) (P : String → Prop) :
    m.store.Keeps (m.naming P) := by
  refine ⟨filled, fun e old name bound => ?_⟩
  cases Nat.lt_one_iff.mp old
  exact .inl bound

theorem keeps_ended (filled : 0 < m.store.scopes.scopes.size) (home : m.scope = Store.globals)
    (frames : m.frames = []) (control : m.control = .done ∨ ∃ f, m.control = .failing f) :
    m.Keeps (m.naming P) := by
  refine ⟨false, ?_, store_naming filled P, ?_⟩
  · rcases control with done | ⟨f, failing⟩
    · rw [done]
      rfl
    · rw [failing]
      exact True.intro
  · rw [frames]
    exact home

theorem assigned_above (resolves : Resolves c.distances G) {waiting : List Frame}
    (fits : (m.above waiting).Fits G shape) {e : ScopeId} {name : String}
    (assigns : m.Assigns c e name) :
    m.store.scopes.contains e name = true ∨ 1 ≤ e :=
  .inr (Nat.pos_of_ne_zero (assigned_of_fits resolves fits (assigns.above waiting)).1)

theorem named_of_keeps (keeps : (step c m).Keeps (m.naming P)) {name : String}
    (bound : (step c m).store.scopes.contains Store.globals name = true) :
    m.store.scopes.contains Store.globals name = true ∨ P name :=
  keeps.store.bound Store.globals Nat.one_pos name bound

theorem keeps_renewed (keeps : (step c m).Keeps (m.naming fun _ => False)) :
    (step c m).Keeps ((step c m).naming fun _ => False) := by
  have same : (step c m).naming (fun _ => False) = m.naming fun _ => False := by
    have names : ∀ name, (step c m).store.scopes.contains Store.globals name = true ↔
        m.store.scopes.contains Store.globals name = true := by
      intro name
      constructor
      · intro bound
        exact (named_of_keeps keeps bound).resolve_right id
      · exact (grows_step c m).contains Store.globals name
    simp only [naming, names]
  rw [same]
  exact keeps

theorem keeps_before {s : Stmt} (control : m.control = .execute s) (home : m.scope = Store.globals)
    (filled : 0 < m.store.scopes.scopes.size) (declared : ∀ t ∈ s.declared, P t.lexeme) :
    m.alone.Keeps (m.alone.naming P) := by
  refine ⟨false, ?_, store_naming filled P, home⟩
  rw [alone, control]
  exact ⟨rfl, fun _ => ⟨True.intro, fun t member => .inr (declared t member)⟩⟩

theorem keeps_binding {frame : Frame} {t : Token} {a : Value} (control : m.control = .value a)
    (home : m.scope = Store.globals) (filled : 0 < m.store.scopes.scopes.size)
    (binds : frame = .define t ∨ ∃ superclass methods, frame = .heritage superclass t methods) :
    Keeps (m.naming (· = t.lexeme)) { m with frames := [frame] } := by
  refine ⟨true, ?_, store_naming filled _, ?_⟩
  · rw [control]
    rfl
  · have admits : (m.naming (· = t.lexeme)).Admits m.scope [t] :=
      fun _ => ⟨True.intro, fun u member => .inr (by rw [List.mem_singleton.mp member])⟩
    rcases binds with rfl | ⟨superclass, methods, rfl⟩
    · exact ⟨rfl, admits, home⟩
    · exact ⟨rfl, admits, home⟩

theorem within_ended (phrase : Machine) {rest : List Stmt} (after : rest <:+ program)
    (filled : 0 < phrase.store.scopes.scopes.size) (home : phrase.scope = Store.globals)
    (frames : phrase.frames = [])
    (control : phrase.control = .done ∨ ∃ f, phrase.control = .failing f) :
    (phrase.above [.sequence rest]).AtTop program :=
  .within (keeps_ended filled home frames control) (.statement after) rfl

theorem within_evaluating (e : Expr) {waiting : List Frame} (waits : Awaits program waiting)
    (home : m.scope = Store.globals) (filled : 0 < m.store.scopes.scopes.size) :
    AtTop program { m with control := .evaluate e, frames := waiting } := by
  let phrase := { m with control := .evaluate e, frames := [] }
  have keeps : phrase.Keeps (phrase.naming fun _ => False) :=
    ⟨true, ⟨rfl, fun _ => ⟨True.intro, fun _ member => nomatch member⟩⟩,
      store_naming filled _, home⟩
  exact .within keeps waits rfl

/-- The global names of a later state are those of an earlier one and what its next step
declares. -/
def NamesAdded (program : List Stmt) (m later : Machine) : Prop :=
  ∀ name, later.store.scopes.contains Store.globals name = true →
    m.store.scopes.contains Store.globals name = true ∨ m.Adds program name

theorem namesAdded_still {later : Machine} (same : later.store = m.store) :
    NamesAdded program m later :=
  fun _ bound => .inl (same ▸ bound)

theorem step_before {s : Stmt} {rest : List Stmt} (inside : s :: rest <:+ program)
    (control : m.control = .execute s) (frames : m.frames = [.sequence rest])
    (home : m.scope = Store.globals) (filled : 0 < m.store.scopes.scopes.size)
    (declared : s.declared = s.named?.toList) :
    (step c m).AtTop program ∧ NamesAdded program m (step c m) := by
  obtain ⟨_, _, scope, depth, store, printed, classes⟩ := m
  cases control
  cases frames
  let phrase : Machine := ⟨.execute s, [], scope, depth, store, printed, classes⟩
  have same : step c (phrase.above [.sequence rest]) = (step c phrase).above [.sequence rest] :=
    step_above rfl _
  have keeps : ∀ P : String → Prop, (∀ t ∈ s.declared, P t.lexeme) →
      (step c phrase).Keeps (phrase.naming P) := by
    intro P all
    apply (keeps_before (m := phrase) rfl home filled all).step
    intro e name assigns
    obtain ⟨control, -, -, -⟩ := assigns
    cases control
  constructor
  · have after : rest <:+ program := (List.suffix_cons s rest).trans inside
    cases s with
    | var id name initializer =>
      cases initializer with
      | none =>
        exact within_ended (step c phrase) after
          (Nat.lt_of_lt_of_le filled (grows_step c phrase).size) home rfl (.inl rfl)
      | some e => exact within_evaluating (m := phrase) e (.initializer inside) home filled
    | function decl =>
      exact within_ended (step c phrase) after
        (Nat.lt_of_lt_of_le filled (grows_step c phrase).size) home rfl (.inl rfl)
    | classDecl id name superclass methods =>
      cases superclass with
      | none =>
        exact within_ended (step c phrase) after
          (Nat.lt_of_lt_of_le filled (grows_step c phrase).size) home rfl (.inl rfl)
      | some use =>
        exact within_evaluating (m := phrase) (.read use) (.superclass inside) home filled
    | _ =>
      refine .within (keeps_renewed (keeps _ ?_)) (.statement after) same
      rw [declared]
      intro t member
      cases member
  · intro name bound
    rcases named_of_keeps (keeps (fun name => ∃ t ∈ s.declared, t.lexeme = name)
      fun t member => ⟨t, member, rfl⟩) (same ▸ bound) with before | ⟨t, member, named⟩
    · exact .inl before
    · rw [declared] at member
      exact .inr ⟨s, rest, t, inside, .begun rfl rfl, Option.mem_toList.mp member, named⟩

theorem step_within {waiting : List Frame} (keeps : phrase.Keeps (phrase.naming fun _ => False))
    (waits : Awaits program waiting) (going : phrase.isOver = false)
    (resolves : Resolves c.distances G) (fits : (phrase.above waiting).Fits G shape) :
    (step c (phrase.above waiting)).AtTop program ∧
      NamesAdded program (phrase.above waiting) (step c (phrase.above waiting)) := by
  have next : (step c phrase).Keeps (phrase.naming fun _ => False) :=
    keeps.step fun e name assigns => assigned_above resolves fits assigns
  rw [step_above going]
  constructor
  · exact .within (keeps_renewed next) waits rfl
  · exact fun name bound => (named_of_keeps next bound).imp_right False.elim

theorem step_binding {frame : Frame} {t : Token} {a : Value} {s : Stmt} {rest : List Stmt}
    (inside : s :: rest <:+ program) (named : s.named? = some t) (declares : m.Declares s rest)
    (control : m.control = .value a) (frames : m.frames = [frame, .sequence rest])
    (binds : frame = .define t ∨ ∃ superclass methods, frame = .heritage superclass t methods)
    (home : m.scope = Store.globals) (filled : 0 < m.store.scopes.scopes.size) :
    (step c m).AtTop program ∧ NamesAdded program m (step c m) := by
  obtain ⟨_, _, scope, depth, store, printed, classes⟩ := m
  cases control
  cases frames
  let phrase : Machine := ⟨.value a, [frame], scope, depth, store, printed, classes⟩
  have same : step c (phrase.above [.sequence rest]) = (step c phrase).above [.sequence rest] :=
    step_above rfl _
  have keeps : (step c phrase).Keeps (phrase.naming (· = t.lexeme)) := by
    apply (keeps_binding (m := phrase) rfl home filled binds).step
    intro e name assigns
    obtain ⟨-, assigning, -, -⟩ := assigns
    rcases binds with rfl | ⟨superclass, methods, rfl⟩ <;> cases assigning
  constructor
  · have after : rest <:+ program := (List.suffix_cons s rest).trans inside
    have later : 0 < (step c phrase).store.scopes.scopes.size :=
      Nat.lt_of_lt_of_le filled (grows_step c phrase).size
    rcases binds with rfl | ⟨superclass, methods, rfl⟩
    · exact within_ended (step c phrase) after later home rfl (.inl rfl)
    · cases a with
      | cls base => exact within_ended (step c phrase) after later home rfl (.inl rfl)
      | _ => exact within_ended (step c phrase) after later home rfl (.inr ⟨_, rfl⟩)
  · intro name bound
    rcases named_of_keeps keeps (same ▸ bound) with before | rfl
    · exact .inl before
    · exact .inr ⟨s, rest, t, inside, declares, named, rfl⟩

/-- A phrase that has ended leaves the statement at the top level that it is in. -/
theorem step_ended {waiting : List Frame} (keeps : phrase.Keeps (phrase.naming fun _ => False))
    (waits : Awaits program waiting) (halted : phrase.isOver = true) :
    (step c (phrase.above waiting)).AtTop program ∧
      NamesAdded program (phrase.above waiting) (step c (phrase.above waiting)) := by
  have home : phrase.scope = Store.globals := keeps.home halted
  have filled : 0 < phrase.store.scopes.scopes.size := by
    obtain ⟨_, _, ready⟩ := keeps
    exact ready.store.old
  obtain ⟨control, frames, scope, depth, store, printed, classes⟩ := phrase
  cases frames_of_over halted
  cases waits with
  | @statement rest after =>
    cases control with
    | evaluate e | execute s => cases halted
    | value a | returning a | failing f => exact ⟨.after rfl, namesAdded_still rfl⟩
    | done =>
      cases rest with
      | nil => exact ⟨.after rfl, namesAdded_still rfl⟩
      | cons s others => exact ⟨.before after rfl rfl home filled, namesAdded_still rfl⟩
  | @initializer id name e rest inside =>
    have after : rest <:+ program := (List.suffix_cons _ rest).trans inside
    cases control with
    | evaluate e | execute s => cases halted
    | value a =>
      exact step_binding inside rfl (.initialized rfl rfl) rfl rfl (.inl rfl) home filled
    | done | returning a | failing f =>
      exact ⟨.within keeps (.statement after) rfl, namesAdded_still rfl⟩
  | @superclass id superclass name use methods rest inside =>
    have after : rest <:+ program := (List.suffix_cons _ rest).trans inside
    cases control with
    | evaluate e | execute s => cases halted
    | value a =>
      exact step_binding inside rfl (.inherited rfl rfl) rfl rfl (.inr ⟨_, _, rfl⟩) home filled
    | done | returning a | failing f =>
      exact ⟨.within keeps (.statement after) rfl, namesAdded_still rfl⟩

theorem atTop_step (top : m.AtTop program) (resolves : Resolves c.distances G)
    (fits : m.Fits G shape) :
    (step c m).AtTop program ∧ NamesAdded program m (step c m) := by
  cases top with
  | before inside control frames home filled =>
    apply step_before inside control frames home filled
    cases fits with
    | execute context levels at_phrase _ _ fit =>
      cases control.symm.trans at_phrase
      exact declared_of_fits fit
    | evaluate _ at_phrase | value _ at_phrase | done _ _ at_phrase | returning _ _ at_phrase
    | failing _ at_phrase => cases control.symm.trans at_phrase
  | @within phrase waiting keeps waits same =>
    subst same
    cases halted : phrase.isOver with
    | true => exact step_ended keeps waits halted
    | false => exact step_within keeps waits halted resolves fits
  | after halted =>
    rw [(step_of_over c halted).1]
    exact ⟨.after halted, namesAdded_still rfl⟩

end Machine

end LoxMachine
