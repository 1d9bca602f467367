import LoxMachine.Proofs.Machine.Extent
import LoxMachine.Proofs.Machine.Preservation
import LoxMachine.Proofs.Scope.Settled
import LoxMachine.Proofs.Search.Machine

namespace LoxMachine

open Static

theorem Static.ne_nil_of_located {levels : List Level} {name : String} {d : Nat}
    (located : locate levels name = some d) : levels ≠ [] := by
  rintro rfl
  cases located

theorem Static.Site.Announced.free {p : Site} {name : String} (announced : p.Announced)
    (settled : ∀ level ∈ p.levels.head?, level.table.get? name ≠ some .declared)
    (inner : p.levels ≠ []) : p.pending ≠ some name := by
  intro pending
  obtain ⟨level, outer, same⟩ := List.exists_cons_of_ne_nil inner
  have innermost : level ∈ p.levels.head? := by
    rw [same]
    rfl
  exact settled level innermost (announced name pending level innermost)

namespace Machine

variable {G : Occurrence → Prop} {shape : List Origin} {taken : List String} {c : Setting}
  {m : Machine} {p : Site} {name : Token}

theorem unbound_of_not_named {k : Nat} {level : Level} {e : ScopeId} {name : String}
    (store : m.store.Fits G shape) (stands : m.Stands G shape p)
    (here : p.levels[k]? = some level) (there : m.store.scopes.outward k m.scope = some e)
    (absent : name ∉ level.origin.names) : m.store.scopes.contains e name = false := by
  obtain ⟨target, _, outward, enclosing, mirrored⟩ := stands.outward here
  cases there.symm.trans outward
  apply Bool.eq_false_iff.mpr
  intro bound
  exact absent (store.named e name level.origin (store.ne_globals enclosing) bound mirrored.opened)

theorem search_located {name : String} {d : Nat} (store : m.store.Fits G shape)
    (stands : m.Stands G shape p) (apart : Apart taken p.levels)
    (located : locate p.levels name = some d) (free : p.pending ≠ some name) :
    ∃ target, m.store.scopes.outward d m.scope = some target ∧
      m.store.scopes.contains target name = true ∧
      m.store.scopes.search m.scope name = some target := by
  obtain ⟨target, _, level, outward, _, here, _, named, bound⟩ := stands.located located
  have within : d < p.levels.length := (List.getElem?_eq_some_iff.mp here).1
  refine ⟨target, outward, bound free, ?_⟩
  apply Forest.search_eq_some stands.outermost store.rooted store.inside (Nat.le_of_lt within)
    outward (bound free)
  intro k sooner inner there
  have nearer := List.getElem?_eq_getElem (Nat.lt_trans sooner within)
  exact unbound_of_not_named store stands nearer there
    (apart.not_named located here named sooner nearer)

theorem search_global {name : String} (store : m.store.Fits G shape)
    (stands : m.Stands G shape p) (apart : Apart taken p.levels)
    (absent : locate p.levels name = none) (known : name ∈ taken)
    (bound : m.store.scopes.contains Store.globals name = true) :
    m.store.scopes.search m.scope name = some Store.globals := by
  apply Forest.search_eq_some stands.outermost store.rooted store.inside (Nat.le_refl _)
    stands.outermost bound
  intro k within inner there
  have nearer := List.getElem?_eq_getElem within
  exact unbound_of_not_named store stands nearer there
    (apart.not_taken absent known (List.mem_of_getElem? nearer))

theorem find_located {name : String} {d : Nat} (store : m.store.Fits G shape)
    (stands : m.Stands G shape p) (apart : Apart taken p.levels)
    (located : locate p.levels name = some d) (free : p.pending ≠ some name) :
    ∃ a, m.store.scopes.getAt m.scope (Int.ofNat d) name = .ok a ∧
      m.store.scopes.find? m.scope name = some a := by
  obtain ⟨target, outward, bound, reached⟩ := search_located store stands apart located free
  obtain ⟨a, found⟩ := Forest.contains_iff_get.mp bound
  refine ⟨a, ?_, Forest.find?_eq_some reached found⟩
  rw [Forest.getAt_eq_get outward]
  exact found

/-- A name was not found. -/
def Misses (m : Machine) : Prop :=
  ∃ name line, m.control = .failing (.complaint (.undefinedVariable name) line)

theorem misses_complain (m : Machine) (name : Token) :
    (m.complain name (.undefinedVariable name.lexeme)).Misses := ⟨_, _, rfl⟩

theorem seek_eq_lookUp {id : NodeId} (resolves : Resolves c.distances G)
    (store : m.store.Fits G shape) (stands : m.Stands G shape p) (apart : Apart taken p.levels)
    (named : m.store.Keeps (.naming (· ∈ taken))) (readable : Readable G p id name)
    (found : ¬ (lookUp c m id name).Misses) : m.seek name = lookUp c m id name := by
  unfold seek
  unfold lookUp at found ⊢
  rw [resolves id name p.levels readable.1] at found ⊢
  cases located : locate p.levels name.lexeme with
  | some d =>
    have free := readable.2 (ne_nil_of_located located)
    obtain ⟨a, there, sought⟩ := find_located store stands apart located free
    simp only [Option.map_some, there, sought, giveBound]
  | none =>
    simp only [located, Option.map_none] at found ⊢
    cases bound : m.store.scopes.get Store.globals name.lexeme with
    | ok a =>
      have global := Forest.contains_iff_get.mpr ⟨a, bound⟩
      have old := named.bound _ Nat.one_pos _ global
      have reached := search_global store stands apart located old global
      simp only [Forest.find?_eq_some reached bound]
    | error e =>
      rw [bound] at found
      exact absurd (misses_complain m name) found

theorem seekAssign_eq_assignTo {id : NodeId} {a : Value} (resolves : Resolves c.distances G)
    (store : m.store.Fits G shape) (stands : m.Stands G shape p) (apart : Apart taken p.levels)
    (named : m.store.Keeps (.naming (· ∈ taken))) (known : G (.use id name p.levels))
    (free : p.levels ≠ [] → p.pending ≠ some name.lexeme)
    (found : ¬ (assignTo c m id name a).Misses) : m.seekAssign name a = assignTo c m id name a := by
  unfold seekAssign
  unfold assignTo at found ⊢
  rw [resolves id name p.levels known] at found ⊢
  cases located : locate p.levels name.lexeme with
  | some d =>
    obtain ⟨target, outward, _, reached⟩ :=
      search_located store stands apart located (free (ne_nil_of_located located))
    simp only [Option.map_some, reached]
    rw [Forest.ancestor_of_outward (d := d) outward]
  | none =>
    simp only [located, Option.map_none] at found ⊢
    by_cases global : m.store.scopes.contains Store.globals name.lexeme = true
    · have old := named.bound _ Nat.one_pos _ global
      have reached := search_global store stands apart located old global
      simp only [reached, global, ↓reduceIte]
    · rw [if_neg global] at found
      exact absurd (misses_complain m name) found

theorem seekSuper_eq_lookUpSuper {id : NodeId} {keyword method : Token}
    (resolves : Resolves c.distances G) (store : m.store.Fits G shape)
    (stands : m.Stands G shape p) (apart : Apart taken p.levels) (same : keyword.lexeme = "super")
    (known : G (.use id keyword p.levels)) (knows : KnowsHeritage p.levels)
    (object_free : p.pending ≠ some "this") (class_free : p.pending ≠ some "super") :
    m.seekSuper keyword method = lookUpSuper c m id method := by
  obtain ⟨d, outer, inner⟩ := knows
  obtain ⟨base, base_there, base_found⟩ := find_located store stands apart outer class_free
  obtain ⟨receiver, there, found⟩ := find_located store stands apart inner object_free
  have further : Int.ofNat (d + 1) - 1 = Int.ofNat d := by
    simp only [Int.ofNat_eq_natCast, Int.natCast_add, Int.natCast_one, Int.add_sub_cancel]
  unfold seekSuper lookUpSuper
  rw [resolves id keyword p.levels known, same, outer, Option.map_some, base_found, found]
  simp only [base_there, further, there]
  cases base <;> rfl

/-- Without distances the next state is the same, unless a name is not found. -/
theorem seekStep_eq_step (resolves : Resolves c.distances G)
    (settled : ∀ o, G o → o.Settled taken) (fits : m.Fits G shape)
    (named : m.store.Keeps (.naming (· ∈ taken))) (found : ¬ (step c m).Misses) :
    seekStep c.depthLimit m = step c m := by
  obtain ⟨control, frames, scope, depth, store, printed, classes⟩ := m
  cases fits with
  | @evaluate e p at_phrase expects stands fits awaited =>
    cases at_phrase
    cases e with
    | read use =>
      have apart := (settled _ fits.1).1
      exact seek_eq_lookUp resolves expects.store stands apart named fits found
    | this id keyword =>
      have apart := (settled _ fits.2.1.1).1
      exact seek_eq_lookUp resolves expects.store stands apart named fits.2.1 found
    | super id keyword method =>
      obtain ⟨same, known, _, knows, object_free, class_free⟩ := fits
      exact seekSuper_eq_lookUpSuper resolves expects.store stands (settled _ known).1 same known
        knows object_free class_free
    | literal | assign | unary | binary | logical | grouping | call | get | set => rfl
  | execute _ _ at_phrase =>
    cases at_phrase
    rfl
  | value p at_phrase expects stands =>
    cases at_phrase
    cases frames with
    | nil => rfl
    | cons frame rest =>
      cases frame with
      | assign id name =>
        cases expects.frames with
        | expression announced waits others =>
          obtain ⟨apart, bound⟩ := settled _ waits.2
          exact seekAssign_eq_assignTo resolves expects.store stands apart named waits.2
            (announced.free bound) found
        | statement waits others => exact False.elim waits
      | callee callee paren arguments => cases arguments <;> rfl
      | argument calleeValue callee paren given arguments => cases arguments <;> rfl
      | _ => rfl
  | done _ _ at_phrase | returning _ _ at_phrase | failing _ at_phrase =>
    cases at_phrase
    cases frames <;> rfl

theorem Misses.step (missing : m.Misses) : (step c m).Misses := by
  obtain ⟨control, frames, scope, depth, store, printed, classes⟩ := m
  obtain ⟨name, line, rfl⟩ := missing
  cases frames with
  | nil => exact ⟨name, line, rfl⟩
  | cons frame rest => cases frame <;> exact ⟨name, line, rfl⟩

theorem Misses.run (missing : m.Misses) (n : Nat) : (run c n m).Misses := by
  induction n generalizing m with
  | zero => exact missing
  | succ n ih =>
    unfold Machine.run
    split
    · exact missing
    · exact ih missing.step

/-- Without distances a run is the same, unless a name is not found. -/
theorem seekRun_eq_run (resolves : Resolves c.distances G)
    (settled : ∀ o, G o → o.Settled taken) (fits : m.Fits G shape)
    (keeps : m.Keeps (.naming (· ∈ taken))) (n : Nat) (found : ¬ (run c n m).Misses) :
    seekRun c.depthLimit n m = run c n m := by
  induction n generalizing m shape with
  | zero => rfl
  | succ n ih =>
    unfold run at found ⊢
    unfold seekRun
    split
    · rfl
    · rename_i going
      rw [if_neg going] at found
      have here : ¬ (step c m).Misses := fun missing => found (missing.run n)
      rw [seekStep_eq_step resolves settled fits keeps.store here]
      exact ih (fits_step resolves fits) (keeps.step_naming resolves fits) found

end Machine

end LoxMachine
