import LoxMachine.Proofs.Recode.Static
import LoxMachine.Proofs.Recode.Kept

namespace LoxMachine

namespace Static

/-- A variable: the node that declares it, the scope in which it does, and the name. -/
structure Local where
  declaration : NodeId
  scope : Origin
  name : String
deriving DecidableEq

def Occurrence.local? : Occurrence → Option Local
  | «variable» id name levels | parameter id name levels => some ⟨id, originOf levels, name.lexeme⟩
  | use _ _ _ | callable _ _ | mark _ _ | scope _ => none

def Occurrence.name? : Occurrence → Option String
  | use _ name _ | «variable» _ name _ | parameter _ name _ | callable name _ => some name.lexeme
  | mark _ _ | scope _ => none

def foundIn (levels : List Level) (name : String) : Option Origin :=
  ((locate levels name).bind fun d => levels[d]?).map (·.origin)

def Occurrence.refersTo (l : Local) : Occurrence → Bool
  | use _ name levels => name.lexeme == l.name && foundIn levels name.lexeme == some l.scope
  | _ => false

/-- The nodes of a program that use the variable. -/
def usesOf (program : List Stmt) (l : Local) : List NodeId :=
  nodeIds ((occurrencesOf program).filter (·.refersTo l))

/-- The program declares the variable in a block or a function, and the other name occurs nowhere
in it. -/
structure Renamable (program : List Stmt) (l : Local) (other : String) : Prop where
  inner : ∃ i, l.scope.id? = some i
  declared : ∃ o ∈ occurrencesOf program, o.local? = some l
  ordinary : other ≠ "this" ∧ other ≠ "super"
  absent : ∀ o ∈ occurrencesOf program, o.name? ≠ some other

structure Separate (program : List Stmt) (older : Occurrence → Prop) : Prop where
  placed : ∀ o ∈ occurrencesOf program, o.Placed (fun _ => True) (· ∈ occurrencesOf program)
  distinct : (nodeIds (occurrencesOf program)).Nodup
  earlier : ∀ o, older o → o.Placed (fun _ => True) older
  apart : ∀ o ∈ occurrencesOf program, ∀ other, older other → ∀ i, o.id? = some i → other.id? ≠ some i

end Static

open Static

def Token.spelled (t : Token) (lexeme : String) : Token := { t with lexeme }

def respell (program : List Stmt) (l : Local) (other : String) : Respelling where
  mark _ t := t
  use i t := if i ∈ usesOf program l then t.spelled other else t
  declare i t := if i = l.declaration ∧ t.lexeme = l.name then t.spelled other else t

theorem respell_use (program : List Stmt) (l : Local) (other : String) (i : NodeId) (t : Token) :
    (respell program l other).use i t = if i ∈ usesOf program l then t.spelled other else t := rfl

theorem respell_declare (program : List Stmt) (l : Local) (other : String) (i : NodeId)
    (t : Token) : (respell program l other).declare i t =
      if i = l.declaration ∧ t.lexeme = l.name then t.spelled other else t := rfl

def boundName (l : Local) (other : String) (origin : Origin) (name : String) : String :=
  if origin = l.scope ∧ name = l.name then other else name

section Renaming

variable {program : List Stmt} {older : Occurrence → Prop} {l : Local} {other : String}

theorem boundName_elsewhere {origin : Origin} (elsewhere : origin ≠ l.scope) (name : String) :
    boundName l other origin name = name :=
  if_neg fun here => elsewhere here.1

theorem declared_of_local {o : Occurrence} {l : Local} (declares : o.local? = some l) :
    o.declared? = some (l.scope, l.name) := by
  cases o with
  | «variable» | parameter =>
    cases declares
    rfl
  | use | callable | mark | scope => cases declares

theorem id_of_local {o : Occurrence} {l : Local} (declares : o.local? = some l) :
    o.id? = some l.declaration := by
  cases o with
  | «variable» | parameter =>
    cases declares
    rfl
  | use | callable | mark | scope => cases declares

theorem Static.Renamable.declaration (renamable : Renamable program l other) :
    ∃ o ∈ occurrencesOf program, o.local? = some l ∧ o.declared? = some (l.scope, l.name) ∧
      o.id? = some l.declaration := by
  obtain ⟨o, member, declares⟩ := renamable.declared
  exact ⟨o, member, declares, declared_of_local declares, id_of_local declares⟩

theorem Static.Renamable.unnamed (renamable : Renamable program l other) {origin : Origin}
    (known : origin.Known (· ∈ occurrencesOf program)) : other ∉ origin.names := by
  have absent : ∀ {i}, origin.id? = some i → .scope origin ∈ occurrencesOf program →
      other ∉ origin.names := by
    intro i opener opened named
    obtain ⟨o, member, declared⟩ := declared_of_scope opener opened named
    refine renamable.absent o member ?_
    cases o with
    | «variable» | parameter | callable =>
      cases declared
      rfl
    | use | mark | scope => cases declared
  cases origin with
  | block id names | function id names => exact absent rfl known
  | global => exact List.not_mem_nil
  | receiver => exact fun named => renamable.ordinary.1 (List.mem_singleton.mp named)
  | heritage => exact fun named => renamable.ordinary.2 (List.mem_singleton.mp named)

section Scopes

variable (separate : Separate program older) (renamable : Renamable program l other)

include separate renamable

theorem Static.Separate.opened : .scope l.scope ∈ occurrencesOf program := by
  obtain ⟨i, opener⟩ := renamable.inner
  obtain ⟨o, member, _, declared, _⟩ := renamable.declaration
  exact known_of_declared (separate.placed o member) declared opener

theorem Static.Separate.elsewhere {origin : Origin} (known : origin.Known older) :
    origin ≠ l.scope := by
  rintro rfl
  obtain ⟨i, opener⟩ := renamable.inner
  have opened := separate.opened renamable
  refine separate.apart _ opened (.scope l.scope) ?_ i opener opener
  cases origin : l.scope with
  | block | function =>
    rw [origin] at known
    exact known
  | global | receiver | heritage =>
    rw [origin] at opener
    cases opener

theorem Static.Separate.elsewhere_of_levels {levels : List Level}
    (known : ∀ level ∈ levels, level.origin.Known older) : originOf levels ≠ l.scope := by
  cases levels with
  | nil =>
    intro same
    obtain ⟨i, opener⟩ := renamable.inner
    rw [← same] at opener
    cases opener
  | cons level outer => exact separate.elsewhere renamable (known level List.mem_cons_self)

end Scopes

theorem Static.Separate.mem_usesOf (separate : Separate program older) {i : NodeId} {name : Token}
    {levels : List Level} (member : .use i name levels ∈ occurrencesOf program) :
    i ∈ usesOf program l ↔ name.lexeme = l.name ∧ foundIn levels name.lexeme = some l.scope := by
  have refers : (Occurrence.use i name levels).refersTo l = true ↔
      name.lexeme = l.name ∧ foundIn levels name.lexeme = some l.scope := by
    simp only [Occurrence.refersTo, Bool.and_eq_true, beq_iff_eq]
  rw [← refers]
  constructor
  · intro used
    obtain ⟨o, kept, node⟩ := List.mem_filterMap.mp used
    obtain ⟨here, refers⟩ := List.mem_filter.mp kept
    have same : o = .use i name levels := node_unique separate.distinct here member node rfl
    rwa [same] at refers
  · intro refers
    exact mem_nodeIds (List.mem_filter.mpr ⟨member, refers⟩) rfl

theorem Static.Separate.not_used (separate : Separate program older) {o : Occurrence} {i : NodeId}
    (earlier : older o) (own : o.id? = some i) : i ∉ usesOf program l := by
  intro used
  obtain ⟨here, kept, node⟩ := List.mem_filterMap.mp used
  exact separate.apart here (List.mem_filter.mp kept).1 o earlier i (Occurrence.id_of_node node) own

theorem Static.Separate.opened_of_parameter (separate : Separate program older) {i : NodeId}
    {name : Token} {levels : List Level}
    (member : .parameter i name levels ∈ occurrencesOf program) :
    .scope (originOf levels) ∈ occurrencesOf program ∧ (originOf levels).id? = some i := by
  have placed := separate.placed _ member
  obtain ⟨names, opened⟩ := placed.function i name levels rfl
  have opener : (originOf levels).id? = some i := by
    rw [opened]
    rfl
  exact ⟨known_of_declared placed rfl opener, opener⟩

/-- What one node declares, it declares in one scope. -/
theorem Static.Separate.scope_of_declaration (separate : Separate program older)
    {o again : Occurrence} {first second : Local} (one : o ∈ occurrencesOf program)
    (two : again ∈ occurrencesOf program) (declares : o.local? = some first)
    (declares' : again.local? = some second) (same : first.declaration = second.declaration) :
    first.scope = second.scope := by
  cases o with
  | «variable» i name levels =>
    cases declares
    cases again with
    | «variable» j name' levels' =>
      cases declares'
      cases same
      cases node_unique separate.distinct one two rfl rfl
      rfl
    | parameter j name' levels' =>
      cases declares'
      cases same
      obtain ⟨opened, opener⟩ := separate.opened_of_parameter two
      cases node_unique separate.distinct one opened rfl opener
    | use | callable | mark | scope => cases declares'
  | parameter i name levels =>
    cases declares
    obtain ⟨opened, opener⟩ := separate.opened_of_parameter one
    cases again with
    | «variable» j name' levels' =>
      cases declares'
      cases same
      cases node_unique separate.distinct two opened rfl opener
    | parameter j name' levels' =>
      cases declares'
      cases same
      obtain ⟨opened', opener'⟩ := separate.opened_of_parameter two
      have equal := node_unique separate.distinct opened opened' opener opener'
      exact Occurrence.scope.inj equal
    | use | callable | mark | scope => cases declares'
  | use | callable | mark | scope => cases declares

section Spellings

variable (separate : Separate program older) (renamable : Renamable program l other)

include separate

theorem use_here {i : NodeId} {name : Token} {levels : List Level} {d : Nat} {level : Level}
    (member : .use i name levels ∈ occurrencesOf program)
    (located : locate levels name.lexeme = some d) (here : levels[d]? = some level) :
    ((respell program l other).use i name).lexeme = boundName l other level.origin name.lexeme := by
  have found : foundIn levels name.lexeme = some level.origin := by
    rw [foundIn, located, Option.bind_some, here, Option.map_some]
  have used := separate.mem_usesOf (l := l) member
  rw [found, Option.some_inj] at used
  by_cases refers : level.origin = l.scope ∧ name.lexeme = l.name
  · rw [respell_use, boundName, if_pos refers, if_pos (used.mpr ⟨refers.2, refers.1⟩)]
    rfl
  · rw [respell_use, boundName, if_neg refers, if_neg fun inside => refers (used.mp inside).symm]

theorem use_missing {i : NodeId} {name : Token} {levels : List Level}
    (member : .use i name levels ∈ occurrencesOf program)
    (located : locate levels name.lexeme = none) :
    (respell program l other).use i name = name := by
  refine if_neg fun used => ?_
  have found := ((separate.mem_usesOf member).mp used).2
  rw [foundIn, located] at found
  cases found

theorem use_older {i : NodeId} {name : Token} {levels : List Level}
    (earlier : older (.use i name levels)) : (respell program l other).use i name = name :=
  if_neg (separate.not_used earlier rfl)

include renamable

theorem declare_older {o : Occurrence} {i : NodeId} (earlier : older o) (own : o.id? = some i)
    (name : Token) : (respell program l other).declare i name = name := by
  obtain ⟨here, member, _, _, declares⟩ := renamable.declaration
  refine if_neg fun same => separate.apart here member o earlier i ?_ own
  rw [declares, same.1]

theorem declare_here {o : Occurrence} {i : NodeId} {name : Token} {levels : List Level}
    (member : o ∈ occurrencesOf program)
    (declares : o.local? = some ⟨i, originOf levels, name.lexeme⟩) :
    ((respell program l other).declare i name).lexeme =
      boundName l other (originOf levels) name.lexeme := by
  obtain ⟨j, opener⟩ := renamable.inner
  obtain ⟨own, here, declared, places, _⟩ := renamable.declaration
  have alike : i = l.declaration ∧ name.lexeme = l.name ↔
      originOf levels = l.scope ∧ name.lexeme = l.name := by
    constructor
    · rintro ⟨rfl, named⟩
      exact ⟨separate.scope_of_declaration member here declares declared rfl, named⟩
    · rintro ⟨around, named⟩
      have again : o.declared? = some (l.scope, l.name) := by
        rw [declared_of_local declares, around, named]
      have same := declaration_unique opener separate.placed separate.distinct member here again places
      rw [same, declared] at declares
      cases declares
      exact ⟨rfl, rfl⟩
  by_cases renames : originOf levels = l.scope ∧ name.lexeme = l.name
  · rw [respell_declare, boundName, if_pos renames, if_pos (alike.mpr renames)]
    rfl
  · rw [respell_declare, boundName, if_neg renames, if_neg fun same => renames (alike.mp same)]

theorem callable_here {name : Token} {levels : List Level}
    (member : .callable name levels ∈ occurrencesOf program) :
    boundName l other (originOf levels) name.lexeme = name.lexeme := by
  obtain ⟨i, opener⟩ := renamable.inner
  obtain ⟨o, declaring, declares, declared, _⟩ := renamable.declaration
  refine if_neg fun same => ?_
  have again : (Occurrence.callable name levels).declared? = some (l.scope, l.name) := by
    rw [Occurrence.declared?, same.1, same.2]
  have equal := declaration_unique opener separate.placed separate.distinct declaring member declared
    again
  rw [equal] at declares
  cases declares

end Spellings

theorem boundName_injective (separate : Separate program older)
    (renamable : Renamable program l other) (origin : Origin) :
    ∀ name ∈ origin.names, ∀ query ∈ origin.names,
      boundName l other origin name = boundName l other origin query → name = query := by
  intro name named query asked same
  by_cases here : origin = l.scope
  · subst here
    have unnamed : other ∉ l.scope.names := by
      refine renamable.unnamed ?_
      have opened := separate.opened renamable
      cases origin : l.scope with
      | block | function => rwa [origin] at opened
      | global | receiver | heritage => exact True.intro
    unfold boundName at same
    by_cases one : name = l.name <;> by_cases two : query = l.name
    · rw [one, two]
    · rw [if_pos ⟨rfl, one⟩, if_neg fun both => two both.2] at same
      exact absurd (same ▸ asked) unnamed
    · rw [if_neg fun both => one both.2, if_pos ⟨rfl, two⟩] at same
      exact absurd (same ▸ named) unnamed
    · rwa [if_neg fun both => one both.2, if_neg fun both => two both.2] at same
  · rwa [boundName_elsewhere here, boundName_elsewhere here] at same

theorem boundName_reserved (separate : Separate program older)
    (renamable : Renamable program l other) (origin : Origin) {name : String}
    (reserved : name = "this" ∨ name = "super") : boundName l other origin name = name := by
  obtain ⟨o, member, _, declared, _⟩ := renamable.declaration
  have ordinary := (separate.placed o member).ordinary l.scope l.name declared
  refine if_neg fun same => ?_
  rcases reserved with rfl | rfl
  · exact ordinary.1 same.2.symm
  · exact ordinary.2 same.2.symm

/-- Renaming a local variable, as a recoding. -/
def Static.Separate.recoding (separate : Separate program older)
    (renamable : Renamable program l other) : Recoding where
  toRespelling := respell program l other
  bound := boundName l other
  mark_lexeme _ _ := rfl
  mark_kind _ _ := rfl
  bound_global name := @boundName_elsewhere l other .global (separate.elsewhere renamable True.intro) name
  bound_this origin := boundName_reserved separate renamable origin (.inl rfl)
  bound_super origin := boundName_reserved separate renamable origin (.inr rfl)
  injective := boundName_injective separate renamable

theorem locate_of_near {levels : List Level} {name : String} {d : Nat} {level : Level}
    (here : levels[d]? = some level) (found : level.table.contains name = true)
    (before : ∀ k < d, ∀ inner : Level, levels[k]? = some inner →
      inner.table.contains name = false) : locate levels name = some d := by
  obtain ⟨inside, at_d⟩ := List.getElem?_eq_some_iff.mp here
  rw [locate, List.findIdx?_eq_some_iff_getElem]
  refine ⟨inside, by rwa [at_d], fun k sooner => ?_⟩
  rw [before k sooner _ (List.getElem?_eq_getElem (Nat.lt_trans sooner inside))]
  exact Bool.false_ne_true

theorem get?_recode_none {names : String → String} {t : Table Stage} {name : String}
    (apart : ∀ other, t.contains other = true → names other ≠ name) :
    (t.recode names id).get? name = none := by
  induction t with
  | nil => rfl
  | cons entry rest ih =>
    obtain ⟨other, a⟩ := entry
    have later := ih fun query member => apart query (by simp [Table.contains_cons, member])
    change Table.get? ((names other, id a) :: Table.recode names id rest) name = none
    have differ := apart other (by simp [Table.contains_cons])
    rw [Table.get?_cons, later, beq_eq_false_iff_ne.mpr differ.symm]
    rfl

variable {G : Occurrence → Prop}

section Respects

variable (separate : Separate program older) (renamable : Renamable program l other)

include separate renamable

theorem unnamed_around {i : NodeId} {name : Token} {levels : List Level} {d : Nat} {level : Level}
    (member : .use i name levels ∈ occurrencesOf program) (here : levels[d]? = some level) :
    level.table.contains other = false := by
  have standing := (separate.placed _ member).standing
  have inside : level ∈ levels := List.mem_of_getElem? here
  refine Bool.eq_false_iff.mpr fun present => ?_
  exact renamable.unnamed (standing.known level inside) (standing.declared level inside other present)

theorem spelled_apart {i : NodeId} {name : Token} {levels : List Level} {d : Nat} {level : Level}
    (member : .use i name levels ∈ occurrencesOf program) (here : levels[d]? = some level)
    (missing : level.table.contains name.lexeme = false) {query : String}
    (present : level.table.contains query = true) :
    boundName l other level.origin query ≠ ((respell program l other).use i name).lexeme := by
  have around := unnamed_around separate renamable member here
  have differ : query ≠ name.lexeme := fun same => by simp [← same, present] at missing
  have absent : other ≠ name.lexeme := fun same =>
    renamable.absent _ member (congrArg some same.symm)
  intro same
  rw [respell_use, boundName] at same
  by_cases used : i ∈ usesOf program l <;>
    by_cases renames : level.origin = l.scope ∧ query = l.name
  · exact differ (renames.2.trans ((separate.mem_usesOf member).mp used).1.symm)
  · rw [if_pos used, if_neg renames] at same
    rw [same] at present
    simp [Token.spelled, around] at present
  · rw [if_neg used, if_pos renames] at same
    exact absent same
  · rw [if_neg used, if_neg renames] at same
    exact differ same

variable (all : ∀ o, G o → o ∈ occurrencesOf program ∨ older o)

include all

theorem use_found {i : NodeId} {name : Token} {levels : List Level} {d : Nat} {level : Level}
    (member : G (.use i name levels)) (located : locate levels name.lexeme = some d)
    (here : levels[d]? = some level) :
    ((respell program l other).use i name).lexeme = boundName l other level.origin name.lexeme := by
  rcases all _ member with now | earlier
  · exact use_here separate now located here
  · have known := (separate.earlier _ earlier).standing.known level (List.mem_of_getElem? here)
    rw [use_older separate earlier, boundName_elsewhere (separate.elsewhere renamable known)]

theorem get?_near {i : NodeId} {name : Token} {levels : List Level} {d : Nat} {level : Level}
    (member : G (.use i name levels)) (here : levels[d]? = some level)
    (before : ∀ k < d, ∀ inner : Level, levels[k]? = some inner →
      inner.table.contains name.lexeme = false) :
    (level.table.recode (boundName l other level.origin) id).get?
      ((respell program l other).use i name).lexeme = level.table.get? name.lexeme := by
  have inside : level ∈ levels := List.mem_of_getElem? here
  have named : ∀ query, level.table.contains query = true → query ∈ level.origin.names := by
    rcases all _ member with now | earlier
    · exact (separate.placed _ now).standing.declared level inside
    · exact (separate.earlier _ earlier).standing.declared level inside
  cases present : level.table.contains name.lexeme with
  | true =>
    have located := locate_of_near here present before
    have kept := Table.get?_recode (f := id) fun query found same =>
      boundName_injective separate renamable level.origin query (named query found) _
        (named _ present) same
    rw [use_found separate renamable all member located here, kept, Option.map_id, id]
  | false =>
    have absent : level.table.get? name.lexeme = none := by
      simpa [Table.contains] using present
    rw [absent]
    refine get?_recode_none fun query found => ?_
    rcases all _ member with now | earlier
    · exact spelled_apart separate renamable now here present found
    · have known := (separate.earlier _ earlier).standing.known level inside
      rw [use_older separate earlier, boundName_elsewhere (separate.elsewhere renamable known)]
      rintro rfl
      rw [present] at found
      cases found

theorem declare_found {o : Occurrence} {i : NodeId} {name : Token} {levels : List Level}
    (member : G o) (around : o.levels = levels)
    (declares : o.local? = some ⟨i, originOf levels, name.lexeme⟩) :
    ((respell program l other).declare i name).lexeme =
      boundName l other (originOf levels) name.lexeme := by
  rcases all _ member with now | earlier
  · exact declare_here separate renamable now declares
  · have known := (separate.earlier _ earlier).standing.known
    rw [around] at known
    rw [declare_older separate renamable earlier (id_of_local declares),
      boundName_elsewhere (separate.elsewhere_of_levels renamable known)]

/-- The renaming leaves every use with its declaration. -/
theorem Static.Separate.respects : (separate.recoding renamable).Respects G where
  near _ _ _ member _ _ here before := get?_near separate renamable all member here before
  found _ _ _ _ _ member located here := use_found separate renamable all member located here
  missing _ _ _ member located := by
    rcases all _ member with now | earlier
    · exact congrArg Token.lexeme (use_missing separate now located)
    · exact congrArg Token.lexeme (use_older separate earlier)
  declared _ _ _ member := declare_found separate renamable all member rfl rfl
  parameter _ _ _ member := declare_found separate renamable all member rfl rfl
  callable _ _ member := by
    rcases all _ member with now | earlier
    · exact callable_here separate renamable now
    · exact boundName_elsewhere (separate.elsewhere_of_levels renamable
        (separate.earlier _ earlier).standing.known) _

omit all in
theorem Static.Separate.kept {o : Occurrence} (earlier : older o) :
    (respell program l other).AgreeOn .still o := by
  cases o with
  | use i name levels => exact use_older separate earlier
  | «variable» i name levels => exact declare_older separate renamable earlier rfl name
  | parameter i name levels => exact declare_older separate renamable earlier rfl name
  | mark => rfl
  | callable | scope => exact True.intro

end Respects

end Renaming

end LoxMachine
