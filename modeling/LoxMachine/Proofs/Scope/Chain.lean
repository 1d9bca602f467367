import Mathlib.Data.List.Chain
import LoxMachine.Proofs.Scope.Mirror

namespace LoxMachine.Forest

variable {α : Type} {f : Forest α} {r e : ScopeId}

structure Ordered (f : Forest α) : Prop where
  inside : 0 < f.scopes.size
  rooted : f.enclosing 0 = none
  older : ∀ e < f.scopes.size, e ≠ 0 → ∃ outer < e, f.enclosing e = some outer

/-- From the scope outward every scope stands in the next one, none comes twice, and the last one
stands in none. So many steps outward lead to the scope in that place, if there is one. -/
structure Grounded (f : Forest α) (r e : ScopeId) : Prop where
  links : (e :: f.chain e).IsChain fun inner outer => f.enclosing inner = some outer
  once : (e :: f.chain e).Nodup
  last : (e :: f.chain e).getLast? = some r
  rooted : f.enclosing r = none
  outward : ∀ n, f.outward n e = (e :: f.chain e)[n]?

theorem Ordered.lt_of_enclosing (ordered : f.Ordered) {outer : ScopeId}
    (around : f.enclosing e = some outer) : outer < e := by
  have inner : e ≠ 0 := by
    rintro rfl
    cases ordered.rooted.symm.trans around
  obtain ⟨other, older, same⟩ := ordered.older e (lt_size_of_enclosing around) inner
  cases around.symm.trans same
  exact older

theorem Ordered.congr {g : Forest α} (ordered : f.Ordered) (size : g.scopes.size = f.scopes.size)
    (enclosing : ∀ e, g.enclosing e = f.enclosing e) : g.Ordered := by
  refine ⟨size ▸ ordered.inside, (enclosing 0).trans ordered.rooted, fun e inside inner => ?_⟩
  obtain ⟨outer, older, around⟩ := ordered.older e (size ▸ inside) inner
  exact ⟨outer, older, (enclosing e).trans around⟩

theorem Ordered.define (ordered : f.Ordered) (e : ScopeId) (name : String) (a : α) :
    (f.define e name a).Ordered :=
  ordered.congr (size_define f e name a) fun query => enclosing_define f e query name a

theorem Ordered.grow (ordered : f.Ordered) (there : e < f.scopes.size) :
    (f.grow (some e)).1.Ordered := by
  have inside := ordered.inside
  refine ⟨?_, ?_, fun query known inner => ?_⟩
  · rw [size_grow]
    exact Nat.succ_pos _
  · rw [enclosing_grow, if_neg (Nat.ne_of_lt inside)]
    exact ordered.rooted
  · rw [size_grow] at known
    rw [enclosing_grow]
    by_cases new : query = f.scopes.size
    · rw [if_pos new]
      exact ⟨e, new ▸ there, rfl⟩
    · rw [if_neg new]
      exact ordered.older query (Nat.lt_of_le_of_ne (Nat.le_of_lt_succ known) new) inner

theorem chainUpTo_outermost (rooted : f.enclosing e = none) (fuel : Nat) :
    f.chainUpTo fuel e = [] := by
  cases fuel with
  | zero => rfl
  | succ fuel => rw [chainUpTo, rooted]

/-- A number of steps that suffices does not show: the scopes around a scope begin with the one that
it stands in. -/
theorem Ordered.chain_eq (ordered : f.Ordered) (there : e < f.scopes.size) {outer : ScopeId}
    (around : f.enclosing e = some outer) : f.chain e = outer :: f.chain outer := by
  have enough : ∀ fuel more e, e < f.scopes.size → e ≤ fuel →
      f.chainUpTo (fuel + more) e = f.chainUpTo fuel e := by
    intro fuel more
    induction fuel with
    | zero =>
      intro e _ within
      cases Nat.le_zero.mp within
      rw [chainUpTo_outermost ordered.rooted, chainUpTo_outermost ordered.rooted]
    | succ fuel ih =>
      intro e there within
      rw [Nat.succ_add, chainUpTo, chainUpTo]
      by_cases first : e = 0
      · rw [first, ordered.rooted]
      · obtain ⟨outer, older, around⟩ := ordered.older e there first
        rw [around]
        exact congrArg (outer :: ·) (ih outer (Nat.lt_trans older there) (by omega))
  have older := ordered.lt_of_enclosing around
  obtain ⟨fuel, size⟩ := Nat.exists_eq_succ_of_ne_zero (Nat.ne_of_gt ordered.inside)
  have next := Nat.lt_trans older there
  rw [chain, chain, size, chainUpTo, around]
  refine congrArg (outer :: ·) (enough fuel 1 outer next ?_).symm
  exact Nat.le_of_lt_succ (size ▸ next)

theorem Ordered.chain_outermost (ordered : f.Ordered) : f.chain 0 = [] :=
  chainUpTo_outermost ordered.rooted _

theorem Ordered.older_chain (ordered : f.Ordered) (there : e < f.scopes.size) :
    ∀ outer ∈ f.chain e, outer < e := by
  induction e using Nat.strongRecOn with
  | ind e ih =>
    intro outer member
    by_cases first : e = 0
    · rw [first, ordered.chain_outermost] at member
      cases member
    · obtain ⟨next, older, around⟩ := ordered.older e there first
      rw [ordered.chain_eq there around] at member
      rcases List.mem_cons.mp member with rfl | further
      · exact older
      · exact Nat.lt_trans (ih next older (Nat.lt_trans older there) outer further) older

/-- From every scope the way outward leads to the first one. -/
theorem Ordered.grounded (ordered : f.Ordered) (there : e < f.scopes.size) : f.Grounded 0 e := by
  induction e using Nat.strongRecOn with
  | ind e ih =>
    by_cases first : e = 0
    · subst first
      refine ⟨?_, ?_, ?_, ordered.rooted, fun n => ?_⟩
      · rw [ordered.chain_outermost]
        exact .singleton 0
      · rw [ordered.chain_outermost]
        exact List.pairwise_singleton _ 0
      · rw [ordered.chain_outermost]
        rfl
      · rw [ordered.chain_outermost]
        cases n with
        | zero => rfl
        | succ n =>
          rw [outward, ordered.rooted]
          rfl
    · obtain ⟨outer, older, around⟩ := ordered.older e there first
      have further := ih outer older (Nat.lt_trans older there)
      have chain := ordered.chain_eq there around
      refine ⟨?_, ?_, ?_, ordered.rooted, fun n => ?_⟩
      · rw [chain]
        exact .cons_cons around further.links
      · refine List.nodup_cons.mpr ⟨fun again => ?_, chain ▸ further.once⟩
        exact Nat.lt_irrefl e (ordered.older_chain there e again)
      · rw [chain, List.getLast?_cons_cons]
        exact further.last
      · rw [chain]
        cases n with
        | zero => rfl
        | succ n => rw [outward_succ around, further.outward n, List.getElem?_cons_succ]

end LoxMachine.Forest
