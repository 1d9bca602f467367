import LoxMachine.Proofs.Scope.Fits
import LoxMachine.Scope.Forest

namespace LoxMachine

namespace Forest

variable {α : Type} {f g h : Forest α}

theorem size_define (f : Forest α) (e : ScopeId) (name : String) (a : α) :
    (f.define e name a).scopes.size = f.scopes.size := Array.size_modify

theorem size_grow (f : Forest α) (around : Option ScopeId) :
    (f.grow around).1.scopes.size = f.scopes.size + 1 := Array.size_push _

theorem enclosing_grow (f : Forest α) (around : Option ScopeId) (e : ScopeId) :
    (f.grow around).1.enclosing e = if e = f.scopes.size then around else f.enclosing e := by
  simp only [grow, enclosing, Array.getElem?_push]
  split <;> rfl

theorem bindings_grow (f : Forest α) (around : Option ScopeId) (e : ScopeId) :
    (f.grow around).1.bindings e = f.bindings e := by
  by_cases new : e = f.scopes.size
  · simp only [grow, bindings, new, Array.getElem?_push_size,
      Array.getElem?_eq_none (Nat.le_refl f.scopes.size)]
  · simp only [grow, bindings, Array.getElem?_push, new, ↓reduceIte]

theorem get_define (f : Forest α) (e query : ScopeId) (name other : String) (a : α)
    (inside : e < f.scopes.size) :
    (f.define e name a).get query other =
      if query = e ∧ other = name then .ok a else f.get query other := by
  simp only [get, bindings_define, inside, and_true]
  by_cases same : e = query
  · subst same
    by_cases here : other = name
    · simp [Table.get?_put, here]
    · simp [Table.get?_put, here]
  · simp [same, Ne.symm same]

theorem get_grow (f : Forest α) (around : Option ScopeId) (e : ScopeId) (name : String) :
    (f.grow around).1.get e name = f.get e name := by
  simp only [get, bindings_grow]

theorem contains_iff_get {e : ScopeId} {name : String} :
    f.contains e name = true ↔ ∃ a, f.get e name = .ok a := by
  simp only [contains, Table.contains, get]
  cases (f.bindings e).get? name <;> simp

theorem contains_define (f : Forest α) (e query : ScopeId) (name other : String) (a : α)
    (inside : e < f.scopes.size) :
    (f.define e name a).contains query other = true ↔
      (query = e ∧ other = name) ∨ f.contains query other = true := by
  rw [contains_iff_get, contains_iff_get, get_define f e query name other a inside]
  split
  · rename_i here
    simp [here]
  · rename_i elsewhere
    simp [elsewhere]

theorem contains_grow (f : Forest α) (around : Option ScopeId) (e : ScopeId) (name : String) :
    (f.grow around).1.contains e name = f.contains e name := by
  simp only [contains, bindings_grow]

theorem lt_size_of_enclosing {e outer : ScopeId} (around : f.enclosing e = some outer) :
    e < f.scopes.size := by
  apply Decidable.byContradiction
  intro outside
  simp [enclosing, Array.getElem?_eq_none (Nat.le_of_not_lt outside)] at around

theorem lt_size_of_contains {e : ScopeId} {name : String} (bound : f.contains e name = true) :
    e < f.scopes.size := by
  apply Decidable.byContradiction
  intro outside
  simp [contains, bindings, Table.contains, Table.get?,
    Array.getElem?_eq_none (Nat.le_of_not_lt outside)] at bound

theorem outward_succ {e outer : ScopeId} (around : f.enclosing e = some outer) (n : Nat) :
    f.outward (n + 1) e = f.outward n outer := by
  rw [outward, around, Option.bind_some]

theorem outward_congr {β : Type} {g : Forest β} (same : ∀ e, g.enclosing e = f.enclosing e)
    (n : Nat) (e : ScopeId) : g.outward n e = f.outward n e := by
  induction n generalizing e with
  | zero => rfl
  | succ n ih =>
    simp only [outward, same]
    cases f.enclosing e with
    | none => rfl
    | some outer => exact ih outer

theorem ancestor_of_outward {e target : ScopeId} {d : Nat} (found : f.outward d e = some target) :
    f.ancestor e (Int.ofNat d) = .ok target := by
  simp only [ancestor, Int.ofNat_eq_natCast, Int.toNat_natCast, found]

theorem getAt_eq_get {e target : ScopeId} {d : Nat} {name : String}
    (found : f.outward d e = some target) :
    f.getAt e (Int.ofNat d) name = f.get target name := by
  rw [getAt, ancestor_of_outward found]
  rfl

structure Extends (f g : Forest α) : Prop where
  size : f.scopes.size ≤ g.scopes.size
  enclosing : ∀ e outer, f.enclosing e = some outer → g.enclosing e = some outer
  contains : ∀ e name, f.contains e name = true → g.contains e name = true

namespace Extends

theorem refl (f : Forest α) : Extends f f := ⟨Nat.le_refl _, fun _ _ => id, fun _ _ => id⟩

theorem trans (first : Extends f g) (second : Extends g h) : Extends f h :=
  ⟨Nat.le_trans first.size second.size,
    fun e outer around => second.enclosing e outer (first.enclosing e outer around),
    fun e name bound => second.contains e name (first.contains e name bound)⟩

theorem define (f : Forest α) (e : ScopeId) (name : String) (a : α) :
    Extends f (f.define e name a) := by
  refine ⟨Nat.le_of_eq (size_define f e name a).symm,
    fun query _ around => (enclosing_define f e query name a).trans around, ?_⟩
  intro query other bound
  by_cases inside : e < f.scopes.size
  · exact (contains_define f e query name other a inside).mpr (.inr bound)
  · rw [Forest.contains, bindings_define, if_neg fun here => inside here.2]
    exact bound

theorem grow (f : Forest α) (around : Option ScopeId) : Extends f (f.grow around).1 := by
  refine ⟨by rw [size_grow]; exact Nat.le_succ _, ?_, ?_⟩
  · intro e outer known
    have older := lt_size_of_enclosing known
    rw [enclosing_grow, if_neg (Nat.ne_of_lt older), known]
  · intro e name bound
    rwa [contains_grow]

end Extends

end Forest

namespace Static

variable {α : Type} {f g : Forest α} {shape : List Origin} {pending : Option String}
  {e : ScopeId} {levels : List Level}

/-- A scope that a level stands for. A pending name may be missing. -/
structure Mirrored (shape : List Origin) (f : Forest α) (pending : Option String) (e : ScopeId)
    (level : Level) : Prop where
  opened : shape[e]? = some level.origin
  named : ∀ name, level.table.contains name = true → name ∈ level.origin.names
  bound : ∀ name, level.table.contains name = true → pending ≠ some name →
    f.contains e name = true

def Mirrors (shape : List Origin) (f : Forest α) :
    Option String → ScopeId → List Level → Prop
  | _, e, [] => e = 0
  | pending, e, level :: outer =>
    Mirrored shape f pending e level ∧
      ∃ around, f.enclosing e = some around ∧ Mirrors shape f none around outer

theorem Mirrored.extend {added : List Origin} {level : Level} (later : Forest.Extends f g)
    (mirrored : Mirrored shape f pending e level) :
    Mirrored (shape ++ added) g pending e level := by
  constructor
  · exact (List.getElem?_append_left (List.getElem?_eq_some_iff.mp mirrored.opened).1).trans
      mirrored.opened
  · exact mirrored.named
  · exact fun name member free => later.contains e name (mirrored.bound name member free)

theorem Mirrors.extend (added : List Origin) (later : Forest.Extends f g)
    (mirrors : Mirrors shape f pending e levels) :
    Mirrors (shape ++ added) g pending e levels := by
  induction levels generalizing pending e with
  | nil => exact mirrors
  | cons level outer ih =>
    obtain ⟨mirrored, around, enclosing, rest⟩ := mirrors
    exact ⟨mirrored.extend later, around, later.enclosing e around enclosing, ih rest⟩

theorem Mirrors.later (later : Forest.Extends f g) (mirrors : Mirrors shape f pending e levels) :
    Mirrors shape g pending e levels := by
  simpa using mirrors.extend [] later

theorem Mirrors.outermost (mirrors : Mirrors shape f pending e levels) :
    f.outward levels.length e = some 0 := by
  induction levels generalizing pending e with
  | nil =>
    cases mirrors
    rfl
  | cons level outer ih =>
    obtain ⟨_, around, enclosing, rest⟩ := mirrors
    rw [List.length_cons, Forest.outward_succ enclosing]
    exact ih rest

theorem Mirrors.outward (mirrors : Mirrors shape f pending e levels) {k : Nat} {level : Level}
    (here : levels[k]? = some level) :
    ∃ target around, f.outward k e = some target ∧ f.enclosing target = some around ∧
      Mirrored shape f (if k = 0 then pending else none) target level := by
  induction levels generalizing pending e k with
  | nil => cases here
  | cons innermost outer ih =>
    obtain ⟨mirrored, around, enclosing, rest⟩ := mirrors
    cases k with
    | zero =>
      cases here
      exact ⟨e, around, rfl, enclosing, mirrored⟩
    | succ k =>
      obtain ⟨target, further, found, inside, same⟩ := ih rest here
      refine ⟨target, further, ?_, inside, ?_⟩
      · rw [Forest.outward_succ enclosing, found]
      · cases k <;> exact same

theorem locate_eq_some {name : String} {d : Nat} (located : locate levels name = some d) :
    ∃ level, levels[d]? = some level ∧ level.table.contains name = true := by
  obtain ⟨inside, named, _⟩ := List.findIdx?_eq_some_iff_getElem.mp located
  exact ⟨levels[d], List.getElem?_eq_getElem inside, named⟩

theorem Mirrors.located (mirrors : Mirrors shape f pending e levels) {name : String} {d : Nat}
    (located : locate levels name = some d) :
    ∃ target around level, f.outward d e = some target ∧ f.enclosing target = some around ∧
      levels[d]? = some level ∧ shape[target]? = some level.origin ∧ name ∈ level.origin.names ∧
      (pending ≠ some name → f.contains target name = true) := by
  obtain ⟨level, here, named⟩ := locate_eq_some located
  obtain ⟨target, around, found, enclosing, mirrored⟩ := mirrors.outward here
  refine ⟨target, around, level, found, enclosing, here, mirrored.opened, mirrored.named name named,
    fun free => ?_⟩
  apply mirrored.bound name named
  split
  · exact free
  · exact fun absent => nomatch absent

theorem Mirrors.grow (origin : Origin) (sized : shape.length = f.scopes.size)
    (mirrors : Mirrors shape f none e levels) :
    Mirrors (shape ++ [origin]) (f.grow (some e)).1 none f.scopes.size (⟨origin, []⟩ :: levels) := by
  refine ⟨⟨?_, ?_, ?_⟩, e, ?_, mirrors.extend _ (Forest.Extends.grow f (some e))⟩
  · rw [← sized, List.getElem?_concat_length]
  · intro name absent
    cases absent
  · intro name absent
    cases absent
  · rw [Forest.enclosing_grow, if_pos rfl]

def Names (levels : List Level) (name : String) : Prop :=
  ∀ level ∈ levels.head?, name ∈ level.origin.names

theorem Names.stage {name other : String} {s : Stage} (names : Names levels name) :
    Names (stage levels other s) name := by
  cases levels with
  | nil => exact names
  | cons innermost outer =>
    rintro _ ⟨⟩
    exact names innermost rfl

theorem Mirrors.lt_size (mirrors : Mirrors shape f pending e levels)
    (filled : 0 < f.scopes.size) : e < f.scopes.size := by
  cases levels with
  | nil =>
    cases mirrors
    exact filled
  | cons level outer =>
    obtain ⟨_, around, enclosing, _⟩ := mirrors
    exact Forest.lt_size_of_enclosing enclosing

theorem Mirrors.hide (mirrors : Mirrors shape f none e levels) :
    Mirrors shape f pending e levels := by
  cases levels with
  | nil => exact mirrors
  | cons level outer =>
    obtain ⟨mirrored, rest⟩ := mirrors
    refine ⟨⟨mirrored.opened, mirrored.named, fun name member _ => ?_⟩, rest⟩
    exact mirrored.bound name member fun absent => nomatch absent

theorem Mirrors.stage {name : String} (mirrors : Mirrors shape f pending e levels)
    (names : Names levels name) (known : pending = some name ∨ f.contains e name = true)
    (s : Stage) : Mirrors shape f pending e (stage levels name s) := by
  cases levels with
  | nil => exact mirrors
  | cons level outer =>
    obtain ⟨mirrored, rest⟩ := mirrors
    have split : ∀ other, (level.table.put name s).contains other = true →
        other = name ∨ level.table.contains other = true := by
      intro other member
      simpa [Table.contains_put] using member
    refine ⟨⟨mirrored.opened, fun other member => ?_, fun other member free => ?_⟩, rest⟩
    · rcases split other member with rfl | member
      · exact names level rfl
      · exact mirrored.named other member
    · rcases split other member with rfl | member
      · exact known.resolve_left free
      · exact mirrored.bound other member free

theorem Mirrors.settle {name : String} (mirrors : Mirrors shape f (some name) e levels)
    (inside : e < f.scopes.size) (a : α) : Mirrors shape (f.define e name a) none e levels := by
  have later := Forest.Extends.define f e name a
  cases levels with
  | nil => exact mirrors
  | cons level outer =>
    obtain ⟨mirrored, around, enclosing, rest⟩ := mirrors
    refine ⟨⟨mirrored.opened, mirrored.named, fun other member _ => ?_⟩, around,
      later.enclosing e around enclosing, rest.later later⟩
    by_cases same : other = name
    · exact (Forest.contains_define f e e name other a inside).mpr (.inl ⟨rfl, same⟩)
    · exact later.contains e other (mirrored.bound other member fun here => same (Option.some.inj here).symm)

theorem Mirrors.announce {name : Token} (mirrors : Mirrors shape f none e levels)
    (names : Names levels name.lexeme) :
    Mirrors shape f (some name.lexeme) e (announce levels name) :=
  mirrors.hide.stage names (.inl rfl) .declared

theorem Mirrors.add {name : Token}
    (mirrors : Mirrors shape f (some name.lexeme) e (Static.announce levels name))
    (names : Names levels name.lexeme) (inside : e < f.scopes.size) (a : α) :
    Mirrors shape (f.define e name.lexeme a) none e (add levels name) :=
  (mirrors.settle inside a).stage names.stage
    (.inr ((Forest.contains_define f e e _ _ a inside).mpr (.inl ⟨rfl, rfl⟩))) .defined

theorem Mirrors.define {name : Token} (mirrors : Mirrors shape f none e levels)
    (names : Names levels name.lexeme) (inside : e < f.scopes.size) (a : α) :
    Mirrors shape (f.define e name.lexeme a) none e (Static.add levels name) :=
  (mirrors.announce names).add names inside a

end Static

end LoxMachine
