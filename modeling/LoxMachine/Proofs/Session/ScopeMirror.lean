import LoxMachine.Proofs.Session.Reachable

namespace LoxMachine

open Static

namespace Machine

/-- The run is at a use of a name: it begins with the node, or is about to assign. -/
inductive AtUse (m : Machine) (id : NodeId) (name : Token) : Prop
  | read (control : m.control = .evaluate (.read ⟨id, name⟩))
  | assign (value : Expr) (control : m.control = .evaluate (.assign id name value))
  | assigned (a : Value) (rest : List Frame) (control : m.control = .value a)
      (frames : m.frames = .assign id name :: rest)
  | this (control : m.control = .evaluate (.this id name))
  | super (method : Token) (control : m.control = .evaluate (.super id name method))

def InHeritage (m : Machine) (name : String) : Prop :=
  ∃ superclass own methods rest, m.frames = .heritage superclass own methods :: rest ∧
    name = own.lexeme

/-- The local scopes of a run are those of a stack of the static pass: as many of them, each with
the names that are defined there, and with no others than its text declares. -/
structure ShowsLevels (m : Machine) (levels : List Level) : Prop where
  scopes : ∀ k level, levels[k]? = some level →
    ∃ e, m.store.scopes.outward k m.scope = some e ∧ e ≠ Store.globals ∧
      (∀ name, level.table.get? name = some .defined →
        m.store.scopes.contains e name = true ∨ k = 0 ∧ m.InHeritage name) ∧
      ∀ name, m.store.scopes.contains e name = true → name ∈ level.origin.names
  outermost : m.store.scopes.outward levels.length m.scope = some Store.globals

variable {G : Occurrence → Prop} {shape : List Origin} {m : Machine} {p : Static.Site}

theorem showsLevels_of_stands (store : m.store.Fits G shape) (stands : m.Stands G shape p)
    (awaited : p.Announced ∨ ∃ name, p.pending = some name ∧ m.InHeritage name) :
    m.ShowsLevels p.levels := by
  refine ⟨fun k level here => ?_, stands.outermost⟩
  obtain ⟨e, _, outward, enclosing, mirrored⟩ := stands.outward here
  have inner := store.ne_globals enclosing
  refine ⟨e, outward, inner, fun name defined => ?_,
    fun name bound => store.named e name level.origin inner bound mirrored.opened⟩
  have member : level.table.contains name = true := by
    simp only [Table.contains, defined, Option.isSome_some]
  by_cases pending : k = 0 ∧ p.pending = some name
  · obtain ⟨rfl, pending⟩ := pending
    rcases awaited with announced | ⟨own, same, heritage⟩
    · have declared := announced name pending level (by rw [← List.head?_eq_getElem?] at here; exact here)
      rw [declared] at defined
      cases defined
    · cases pending.symm.trans same
      exact .inr ⟨rfl, heritage⟩
  · refine .inl (mirrored.bound name member fun same => pending ?_)
    split at same
    · rename_i innermost
      exact ⟨innermost, same⟩
    · cases same

/-- At a use the scopes are those of the levels around it. -/
theorem showsLevels_of_fits {id : NodeId} {name : Token} (fits : m.Fits G shape)
    (at_use : m.AtUse id name) : ∃ levels, G (.use id name levels) ∧ m.ShowsLevels levels := by
  have begun : ∀ e, m.control = .evaluate e → ∃ p, e.Fits G p ∧ m.ShowsLevels p.levels := by
    intro e evaluating
    cases fits with
    | evaluate p control expects stands fits awaited =>
      cases control.symm.trans evaluating
      refine ⟨p, fits, showsLevels_of_stands expects.store stands (awaited.imp_right ?_)⟩
      rintro ⟨_, superclass, own, methods, rest, _, pending, frames⟩
      exact ⟨own.lexeme, pending, superclass, own, methods, rest, frames, rfl⟩
    | execute _ _ control | value _ control | done _ _ control | returning _ _ control
    | failing _ control => cases control.symm.trans evaluating
  cases at_use with
  | read control =>
    obtain ⟨p, fits, shows⟩ := begun _ control
    exact ⟨p.levels, fits.1, shows⟩
  | assign value control =>
    obtain ⟨p, fits, shows⟩ := begun _ control
    exact ⟨p.levels, fits.2.2, shows⟩
  | this control =>
    obtain ⟨p, fits, shows⟩ := begun _ control
    exact ⟨p.levels, fits.2.1.1, shows⟩
  | super method control =>
    obtain ⟨p, fits, shows⟩ := begun _ control
    exact ⟨p.levels, fits.2.1, shows⟩
  | assigned a rest at_value frames =>
    cases fits with
    | value p control expects stands fits =>
      have framed := expects.frames
      rw [frames] at framed
      cases framed with
      | expression announced waits _ =>
        exact ⟨p.levels, waits.2, showsLevels_of_stands expects.store stands (.inl announced)⟩
      | statement waits _ => exact False.elim waits
    | evaluate _ control | execute _ _ control | done _ _ control | returning _ _ control
    | failing _ control => cases control.symm.trans at_value

end Machine

namespace Session

/-- Whenever a run is at a use of a name, the local scopes are those of the stack with which the
static pass came upon the use, which is the only use with its number; and the use has no distance
if and only if no scope of the stack has the name. -/
theorem showsLevels_of_reachable {programs : List (List Stmt)} {held : List Value} {s : Session}
    {source : String} {program : List Stmt} {ds : Distances} (reached : Reachable programs held s)
    (accepted : s.Accepts source program ds) (depth n : Nat) {id : NodeId} {name : Token}
    (at_use : (s.point depth program ds n).AtUse id name) :
    ∃ levels, (∃ body ∈ program :: programs, .use id name levels ∈ occurrencesOf body) ∧
      (∀ body ∈ program :: programs, ∀ other outer, .use id other outer ∈ occurrencesOf body →
        other = name ∧ outer = levels) ∧
      (s.point depth program ds n).ShowsLevels levels ∧
      (s.setting depth ds).distances.lookup id = (locate levels name.lexeme).map Int.ofNat ∧
      ((s.setting depth ds).distances.lookup id = none ↔
        ∀ level ∈ levels, level.table.contains name.lexeme = false) := by
  have sound := sound_of_reachable reached
  obtain ⟨shape, fits, _⟩ := accepted.fits sound depth n
  obtain ⟨levels, member, shows⟩ := Machine.showsLevels_of_fits fits at_use
  have distance := accepted.resolves sound id name levels member
  refine ⟨levels, member, fun body here other outer use => ?_, shows, distance, ?_⟩
  · cases accepted.unique sound _ _ id ⟨body, here, use⟩ member rfl rfl
    exact ⟨rfl, rfl⟩
  · change (ds ++ s.distances).lookup id = none ↔ _
    rw [distance, Option.map_eq_none_iff, locate, List.findIdx?_eq_none_iff]

def firstLine (lexeme : String) : Token := ⟨.identifier, lexeme, 1⟩

def closureProgram : List Stmt :=
  [.block 8 [.var 1 (firstLine "a") none,
    .function (.mk 4 (firstLine "f") [] [.expression 3 (.read ⟨2, firstLine "a"⟩)]),
    .expression 7 (.call 6 (.read ⟨5, firstLine "f"⟩) ⟨.symbol .rightParen, ")", 1⟩ [])]]

/-- The function reads the name one scope further out. -/
theorem showsLevels_of_closure :
    (empty "main").Accepts "{ var a; fun f() { a; } f(); }" closureProgram [(2, 1), (5, 0)] ∧
      ((empty "main").point 9 closureProgram [(2, 1), (5, 0)] 13).AtUse 2 (firstLine "a") ∧
      ∃ levels, ((empty "main").point 9 closureProgram [(2, 1), (5, 0)] 13).ShowsLevels levels ∧
        (locate levels "a").map Int.ofNat = some 1 := by
  have accepted : (empty "main").Accepts "{ var a; fun f() { a; } f(); }" closureProgram
      [(2, 1), (5, 0)] := ⟨by rfl, by rfl⟩
  have at_use : ((empty "main").point 9 closureProgram [(2, 1), (5, 0)] 13).AtUse 2
      (firstLine "a") := .read rfl
  obtain ⟨levels, _, _, shows, distance, _⟩ :=
    showsLevels_of_reachable (.empty "main") accepted 9 13 at_use
  exact ⟨accepted, at_use, levels, shows, distance.symm⟩

end Session

end LoxMachine
