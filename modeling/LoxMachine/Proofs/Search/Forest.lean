import Mathlib.Data.Finset.Card
import LoxMachine.Proofs.Scope.Mirror

namespace LoxMachine

namespace Forest

variable {α : Type} {f : Forest α} {e r target : ScopeId}

/-- The first scope from one outward that binds the name. -/
def search (f : Forest α) (e : ScopeId) (name : String) : Option ScopeId :=
  (e :: f.chain e).find? (f.contains · name)

theorem outward_add (f : Forest α) (n k : Nat) (e : ScopeId) :
    f.outward (n + k) e = (f.outward n e).bind (f.outward k) := by
  induction n generalizing e with
  | zero => simp [outward]
  | succ n ih =>
    rw [Nat.succ_add, outward, outward]
    cases f.enclosing e with
    | none => rfl
    | some outer => exact ih outer

theorem outward_once {i j n : Nat} {a : ScopeId} (outermost : f.outward n e = some r)
    (rooted : f.enclosing r = none) (sooner : i < j) (within : j ≤ n)
    (first : f.outward i e = some a) (again : f.outward j e = some a) : False := by
  obtain ⟨k, rfl⟩ := Nat.exists_eq_add_of_le within
  have rest : f.outward k a = some r := by
    rw [outward_add, again] at outermost
    exact outermost
  have early : f.outward (i + k + 1) e = none := by
    rw [outward_add, outward_add, first, Option.bind_some, rest, Option.bind_some, outward, rooted]
    rfl
  obtain ⟨more, same⟩ := Nat.exists_eq_add_of_le (show i + k + 1 ≤ j + k by omega)
  rw [same, outward_add, early] at outermost
  cases outermost

theorem exists_outward {i n : Nat} (outermost : f.outward n e = some r) (within : i ≤ n) :
    ∃ a, f.outward i e = some a := by
  obtain ⟨k, rfl⟩ := Nat.exists_eq_add_of_le within
  rw [outward_add] at outermost
  exact ⟨_, (Option.bind_eq_some_iff.mp outermost).choose_spec.1⟩

theorem lt_size_of_outward {i n : Nat} {a : ScopeId} (outermost : f.outward n e = some r)
    (inside : r < f.scopes.size) (within : i ≤ n) (reached : f.outward i e = some a) :
    a < f.scopes.size := by
  rcases Nat.lt_or_eq_of_le within with before | rfl
  · obtain ⟨b, next⟩ := exists_outward outermost (show i + 1 ≤ n from before)
    rw [outward_add, reached, Option.bind_some, outward] at next
    obtain ⟨outer, enclosing, _⟩ := Option.bind_eq_some_iff.mp next
    exact lt_size_of_enclosing enclosing
  · cases reached.symm.trans outermost
    exact inside

theorem outward_lt_size {n : Nat} (outermost : f.outward n e = some r)
    (rooted : f.enclosing r = none) (inside : r < f.scopes.size) : n < f.scopes.size := by
  let place := fun i => (f.outward i e).getD r
  have placed : ∀ i ∈ Finset.range (n + 1), f.outward i e = some (place i) := by
    intro i member
    have within := Nat.lt_succ_iff.mp (Finset.mem_range.mp member)
    obtain ⟨a, reached⟩ := exists_outward outermost within
    simp [place, reached]
  have count : (Finset.range (n + 1)).card ≤ (Finset.range f.scopes.size).card := by
    apply Finset.card_le_card_of_injOn place
    · intro i member
      have within := Nat.lt_succ_iff.mp (Finset.mem_range.mp member)
      exact Finset.mem_coe.mpr
        (Finset.mem_range.mpr (lt_size_of_outward outermost inside within (placed i member)))
    · intro i one j other same
      have low := Nat.lt_succ_iff.mp (Finset.mem_range.mp (Finset.mem_coe.mp one))
      have high := Nat.lt_succ_iff.mp (Finset.mem_range.mp (Finset.mem_coe.mp other))
      have first := placed i one
      rw [same] at first
      rcases Nat.lt_trichotomy i j with before | here | after
      · exact (outward_once outermost rooted before high first (placed j other)).elim
      · exact here
      · exact (outward_once outermost rooted after low (placed j other) first).elim
  rw [Finset.card_range, Finset.card_range] at count
  exact count

theorem find?_chainUpTo {name : String} {d fuel : Nat} (reached : f.outward d e = some target)
    (bound : f.contains target name = true) (enough : d ≤ fuel)
    (before : ∀ k < d, ∀ inner, f.outward k e = some inner → f.contains inner name = false) :
    (e :: f.chainUpTo fuel e).find? (f.contains · name) = some target := by
  induction d generalizing e fuel with
  | zero =>
    cases reached
    exact List.find?_cons_of_pos bound
  | succ d ih =>
    cases fuel with
    | zero => cases enough
    | succ fuel =>
      obtain ⟨outer, enclosing, further⟩ := Option.bind_eq_some_iff.mp reached
      have missing := before 0 (Nat.succ_pos d) e rfl
      rw [List.find?_cons, missing, chainUpTo, enclosing]
      apply ih further (Nat.le_of_succ_le_succ enough)
      intro k sooner inner there
      apply before (k + 1) (Nat.succ_lt_succ sooner) inner
      rw [outward_succ enclosing, there]

theorem search_eq_some {name : String} {d n : Nat} (outermost : f.outward n e = some r)
    (rooted : f.enclosing r = none) (inside : r < f.scopes.size) (within : d ≤ n)
    (reached : f.outward d e = some target) (bound : f.contains target name = true)
    (before : ∀ k < d, ∀ inner, f.outward k e = some inner → f.contains inner name = false) :
    f.search e name = some target :=
  find?_chainUpTo reached bound
    (Nat.le_trans within (Nat.le_of_lt (outward_lt_size outermost rooted inside))) before

end Forest

end LoxMachine
