import LoxMachine.Proofs.Search.Forest
import LoxMachine.Proofs.Value.Latest

namespace LoxMachine.Forest

variable {α : Type}

inductive Call (α : Type) where
  | new (enclosing : Option ScopeId)
  | define (e : ScopeId) (name : String) (a : α)
  | assign (e : ScopeId) (name : String) (a : α)
  | assignAt (e : ScopeId) (distance : Int) (name : String) (a : α)
  | get (e : ScopeId) (name : String)
  | getAt (e : ScopeId) (distance : Int) (name : String)
  | contains (e : ScopeId) (name : String)
  | ancestor (e : ScopeId) (distance : Int)

inductive Answer (α : Type) where
  | done
  | scope (e : ScopeId)
  | value (a : α)
  | truth (b : Bool)

def settle (f : Forest α) : Except ScopeError (Forest α) → Except ScopeError (Answer α) × Forest α
  | .ok g => (.ok .done, g)
  | .error e => (.error e, f)

/-- What a call answers, and the forest after it. -/
def perform (f : Forest α) : Call α → Except ScopeError (Answer α) × Forest α
  | .new enclosing => (.ok (.scope (f.grow enclosing).2), (f.grow enclosing).1)
  | .define e name a => (.ok .done, f.define e name a)
  | .assign e name a => f.settle (f.assign e name a)
  | .assignAt e distance name a => f.settle (f.assignAt e distance name a)
  | .get e name => ((f.get e name).map .value, f)
  | .getAt e distance name => ((f.getAt e distance name).map .value, f)
  | .contains e name => (.ok (.truth (f.contains e name)), f)
  | .ancestor e distance => ((f.ancestor e distance).map .scope, f)

namespace Call

def scope? : Call α → Option ScopeId
  | new enclosing => enclosing
  | define e _ _ | assign e _ _ | assignAt e _ _ _ | get e _ | getAt e _ _ | contains e _
  | ancestor e _ => some e

def write? : Call α → Option (ScopeId × Int × String × α)
  | define e name a | assign e name a => some (e, 0, name, a)
  | assignAt e distance name a => some (e, distance, name, a)
  | new _ | get _ _ | getAt _ _ _ | contains _ _ | ancestor _ _ => none

def read? : Call α → Option (ScopeId × Int × String)
  | get e name => some (e, 0, name)
  | getAt e distance name => some (e, distance, name)
  | new _ | define _ _ _ | assign _ _ _ | assignAt _ _ _ _ | contains _ _ | ancestor _ _ => none

def reach? : Call α → Option (ScopeId × Int)
  | assignAt e distance _ _ | getAt e distance _ | ancestor e distance => some (e, distance)
  | new _ | define _ _ _ | assign _ _ _ | get _ _ | contains _ _ => none

def Goes (f : Forest α) (call : Call α) : Prop := ∀ e ∈ call.scope?, e < f.scopes.size

instance (f : Forest α) (call : Call α) : Decidable (call.Goes f) :=
  inferInstanceAs (Decidable (∀ e ∈ call.scope?, e < f.scopes.size))

end Call

abbrev Event (α : Type) := Call α × Except ScopeError (Answer α)

/-- All that was called from the beginning on, and the forest after it. -/
inductive History : List (Event α) → Forest α → Prop
  | nil : History [] empty
  | concat {past : List (Event α)} {f : Forest α} {call : Call α} (history : History past f)
      (goes : call.Goes f) : History (past ++ [(call, (f.perform call).1)]) (f.perform call).2

def opened (past : List (Event α)) : List (Option ScopeId) :=
  past.filterMap fun event => match event.1 with
    | .new enclosing => some enclosing
    | _ => none

/-- The ancestors of a scope, the nearest first. -/
inductive Lineage (parents : List (Option ScopeId)) : ScopeId → List ScopeId → Prop
  | outermost {e : ScopeId} (alone : parents[e]? = some none) : Lineage parents e []
  | inside {e outer : ScopeId} {ancestors : List ScopeId} (around : parents[e]? = some (some outer))
      (further : Lineage parents outer ancestors) : Lineage parents e (outer :: ancestors)

/-- The distance leads from the scope to the target. -/
def Leads (parents : List (Option ScopeId)) (e : ScopeId) (distance : Int) (target : ScopeId) : Prop :=
  ∃ ancestors, Lineage parents e ancestors ∧ (e :: ancestors)[distance.toNat]? = some target

/-- The event bound the name in the target, by whatever way. -/
def Writes (parents : List (Option ScopeId)) (target : ScopeId) (name : String) (event : Event α)
    (a : α) : Prop :=
  ∃ e distance, event.1.write? = some (e, distance, name, a) ∧ event.2 = .ok .done ∧
    Leads parents e distance target

/-- The latest write of the name in the scope was of this value. -/
def Latest (past : List (Event α)) (e : ScopeId) (name : String) (a : α) : Prop :=
  LastWritten (Writes (opened past) e name) past a

def Never (past : List (Event α)) (e : ScopeId) (name : String) : Prop :=
  NeverWritten (Writes (opened past) e name) past

/-- What the calls so far tell of the next one, in the forest `f`, after which it is `g`. -/
structure Follows (past : List (Event α)) (f : Forest α) (call : Call α)
    (answer : Except ScopeError (Answer α)) (g : Forest α) : Prop where
  new : ∀ enclosing, call = .new enclosing → answer = .ok (.scope (opened past).length)
  define : ∀ e name a, call = .define e name a → answer = .ok .done
  assign : ∀ e name a, call = .assign e name a →
    (answer = .ok .done ↔ ∃ b, Latest past e name b) ∧
      (answer = .error (.unbound name) ↔ Never past e name)
  assignAt : ∀ e distance name a target, call = .assignAt e distance name a →
    Leads (opened past) e distance target → answer = .ok .done
  read : ∀ e distance name target, call.read? = some (e, distance, name) →
    Leads (opened past) e distance target →
    (∀ a, answer = .ok (.value a) ↔ Latest past target name a) ∧
      (answer = .error (.unbound name) ↔ Never past target name)
  contains : ∀ e name, call = .contains e name →
    ∃ truth, answer = .ok (.truth truth) ∧ (truth = true ↔ ∃ a, Latest past e name a)
  ancestor : ∀ e distance target, call = .ancestor e distance →
    (answer = .ok (.scope target) ↔ Leads (opened past) e distance target)
  tooFar : ∀ e distance, call.reach? = some (e, distance) → ∃ ancestors,
    Lineage (opened past) e ancestors ∧
      (answer = .error (.tooFar distance) ↔ (ancestors.length : Int) < distance)
  itself : ∀ e distance, call = .ancestor e distance → distance ≤ 0 → answer = .ok (.scope e)
  adds_up : ∀ e middle i j, call = .ancestor middle j → 0 ≤ i → 0 ≤ j →
    f.ancestor e i = .ok middle →
      ∀ target, answer = .ok (.scope target) ↔ f.ancestor e (i + j) = .ok target
  failed : ∀ error, answer = .error error → g = f
  read_only : call.write? = none → (∀ enclosing, call ≠ .new enclosing) → g = f

variable {f g : Forest α} {call : Call α} {parents : List (Option ScopeId)} {past : List (Event α)}
  {e target : ScopeId} {distance : Int} {name : String} {a : α}

theorem Lineage.unique {ancestors others : List ScopeId} (one : Lineage parents e ancestors)
    (other : Lineage parents e others) : ancestors = others := by
  induction one generalizing others with
  | outermost alone =>
    cases other with
    | outermost => rfl
    | inside around => cases alone.symm.trans around
  | inside around _ ih =>
    cases other with
    | outermost alone => cases alone.symm.trans around
    | inside around' further =>
      cases around.symm.trans around'
      rw [ih further]

structure Tracks (parents : List (Option ScopeId)) (f : Forest α) : Prop where
  around : ∀ e < f.scopes.size, parents[e]? = some (f.enclosing e)
  older : ∀ e outer, f.enclosing e = some outer → outer < e

theorem Tracks.lineage (tracks : Tracks parents f) (there : e < f.scopes.size) :
    ∃ ancestors, Lineage parents e ancestors ∧ (∀ n, f.outward n e = (e :: ancestors)[n]?) ∧
      ∀ outer ∈ e :: ancestors, outer < f.scopes.size := by
  induction e using Nat.strongRecOn with
  | ind e ih =>
    have around := tracks.around e there
    cases enclosing : f.enclosing e with
    | none =>
      rw [enclosing] at around
      refine ⟨[], .outermost around, fun n => ?_, by simpa using there⟩
      cases n with
      | zero => rfl
      | succ n => simp [outward, enclosing]
    | some outer =>
      rw [enclosing] at around
      have older := tracks.older e outer enclosing
      obtain ⟨ancestors, lineage, ways, inside⟩ := ih outer older (Nat.lt_trans older there)
      refine ⟨outer :: ancestors, .inside around lineage, fun n => ?_,
        List.forall_mem_cons.mpr ⟨there, inside⟩⟩
      cases n with
      | zero => rfl
      | succ n => rw [outward_succ enclosing, ways, List.getElem?_cons_succ]

theorem ancestor_eq_ok : f.ancestor e distance = .ok target ↔
    f.outward distance.toNat e = some target := by
  unfold ancestor
  cases f.outward distance.toNat e <;> simp

theorem Tracks.leads_iff (tracks : Tracks parents f) (there : e < f.scopes.size) :
    f.ancestor e distance = .ok target ↔ Leads parents e distance target := by
  obtain ⟨ancestors, lineage, ways, -⟩ := tracks.lineage there
  rw [ancestor_eq_ok, ways]
  constructor
  · intro reached
    exact ⟨ancestors, lineage, reached⟩
  · rintro ⟨others, other, reached⟩
    rw [lineage.unique other]
    exact reached

theorem Tracks.lt_size (tracks : Tracks parents f) (there : e < f.scopes.size)
    (reached : f.ancestor e distance = .ok target) : target < f.scopes.size := by
  obtain ⟨ancestors, -, ways, inside⟩ := tracks.lineage there
  rw [ancestor_eq_ok, ways] at reached
  exact inside target (List.mem_of_getElem? reached)

theorem Tracks.tooFar_iff (tracks : Tracks parents f) (there : e < f.scopes.size) (distance : Int) :
    ∃ ancestors, Lineage parents e ancestors ∧
      (f.ancestor e distance = .error (.tooFar distance) ↔ (ancestors.length : Int) < distance) := by
  obtain ⟨ancestors, lineage, ways, -⟩ := tracks.lineage there
  refine ⟨ancestors, lineage, ?_⟩
  have far : f.ancestor e distance = .error (.tooFar distance) ↔
      (e :: ancestors)[distance.toNat]? = none := by
    rw [← ways]
    unfold ancestor
    cases f.outward distance.toNat e <;> simp
  rw [far, List.getElem?_eq_none_iff, List.length_cons]
  omega

/-- What a call does: it opens a scope, or binds a name at a distance, or changes nothing. -/
theorem perform_cases (f : Forest α) (call : Call α) :
    (∃ enclosing, call = .new enclosing ∧
      f.perform call = (.ok (.scope f.scopes.size), (f.grow enclosing).1)) ∨
    (∃ e distance name a target, call.write? = some (e, distance, name, a) ∧
      f.ancestor e distance = .ok target ∧ f.perform call = (.ok .done, f.define target name a)) ∨
    (f.perform call).2 = f ∧ (f.perform call).1 ≠ .ok .done ∧ ∀ enclosing, call ≠ .new enclosing := by
  cases call with
  | new enclosing => exact .inl ⟨enclosing, rfl, rfl⟩
  | define e name a => exact .inr (.inl ⟨e, 0, name, a, e, rfl, rfl, rfl⟩)
  | assign e name a =>
    by_cases bound : f.contains e name = true
    · refine .inr (.inl ⟨e, 0, name, a, e, rfl, rfl, ?_⟩)
      rw [perform, assign, if_pos bound, settle]
    · refine .inr (.inr ?_)
      rw [perform, assign, if_neg bound, settle]
      simp
  | assignAt e distance name a =>
    cases reached : f.ancestor e distance with
    | ok target =>
      refine .inr (.inl ⟨e, distance, name, a, target, rfl, reached, ?_⟩)
      rw [perform, assignAt, reached]
      rfl
    | error error =>
      refine .inr (.inr ?_)
      rw [perform, assignAt, reached]
      exact ⟨rfl, nofun, nofun⟩
  | get e name =>
    refine .inr (.inr ⟨rfl, ?_, nofun⟩)
    rw [perform]
    cases f.get e name <;> exact nofun
  | getAt e distance name =>
    refine .inr (.inr ⟨rfl, ?_, nofun⟩)
    rw [perform]
    cases f.getAt e distance name <;> exact nofun
  | contains e name => exact .inr (.inr ⟨rfl, nofun, nofun⟩)
  | ancestor e distance =>
    refine .inr (.inr ⟨rfl, ?_, nofun⟩)
    rw [perform]
    cases f.ancestor e distance <;> exact nofun

theorem Call.scope_of_write {entry : Int × String × α} (write : call.write? = some (e, entry)) :
    call.scope? = some e := by
  cases call <;> cases write <;> rfl

theorem opened_concat (past : List (Event α)) (call : Call α) (answer : Except ScopeError (Answer α)) :
    opened (past ++ [(call, answer)]) = opened past ++
      match call with
      | .new enclosing => [enclosing]
      | _ => [] := by
  unfold opened
  rw [List.filterMap_append]
  cases call <;> rfl

theorem Tracks.grow {enclosing : Option ScopeId} (tracks : Tracks parents f)
    (counted : parents.length = f.scopes.size) (goes : ∀ e ∈ enclosing, e < f.scopes.size) :
    Tracks (parents ++ [enclosing]) (f.grow enclosing).1 := by
  constructor
  · intro e there
    rw [size_grow] at there
    rw [enclosing_grow]
    by_cases new : e = f.scopes.size
    · rw [if_pos new, new, ← counted, List.getElem?_concat_length]
    · have old : e < f.scopes.size := by omega
      rw [if_neg new, List.getElem?_append_left (counted ▸ old)]
      exact tracks.around e old
  · intro e outer around
    rw [enclosing_grow] at around
    by_cases new : e = f.scopes.size
    · rw [if_pos new] at around
      rw [new]
      exact goes outer around
    · rw [if_neg new] at around
      exact tracks.older e outer around

theorem Tracks.congr (tracks : Tracks parents f) (size : g.scopes.size = f.scopes.size)
    (same : ∀ e, g.enclosing e = f.enclosing e) : Tracks parents g := by
  constructor
  · intro e there
    rw [same]
    exact tracks.around e (size ▸ there)
  · intro e outer around
    rw [same] at around
    exact tracks.older e outer around

theorem Tracks.extend {more : List (Option ScopeId)} (tracks : Tracks parents f)
    (longer : parents <+: more) : Tracks more f := by
  refine ⟨fun e there => ?_, tracks.older⟩
  obtain ⟨rest, rfl⟩ := longer
  have known := tracks.around e there
  rw [List.getElem?_append_left (List.getElem?_eq_some_iff.mp known).1]
  exact known

theorem History.tracks (history : History past f) :
    (opened past).length = f.scopes.size ∧ Tracks (opened past) f := by
  induction history with
  | nil => exact ⟨rfl, nofun, nofun⟩
  | @concat past f call history goes ih =>
    obtain ⟨counted, tracks⟩ := ih
    rw [opened_concat]
    rcases perform_cases f call with ⟨enclosing, rfl, done⟩ |
      ⟨e, distance, name, a, target, write, -, done⟩ | ⟨same, -, old⟩
    · rw [done]
      exact ⟨by rw [List.length_append, counted, size_grow]; rfl, tracks.grow counted goes⟩
    · rw [done]
      have none_opened : (match call with | .new enclosing => [enclosing] | _ => []) = [] := by
        cases call <;> cases write <;> rfl
      rw [none_opened, List.append_nil, size_define]
      exact ⟨counted, tracks.congr (size_define f target name a) (enclosing_define f target · name a)⟩
    · rw [same]
      have none_opened : (match call with | .new enclosing => [enclosing] | _ => []) = [] := by
        cases call with
        | new enclosing => exact absurd rfl (old enclosing)
        | _ => rfl
      rw [none_opened, List.append_nil]
      exact ⟨counted, tracks⟩

/-- By induction on the calls: what a scope binds to a name is what the latest write by any way to
that scope stored there. -/
theorem History.reflects (history : History past f) (known : opened past <+: parents) :
    ∀ e name a, f.get e name = .ok a ↔ LastWritten (Writes parents e name) past a := by
  induction history with
  | nil =>
    intro e name a
    refine iff_of_false nofun ?_
    exact NeverWritten.not_lastWritten (List.forall_mem_nil _)
  | @concat past f call history goes ih =>
    have earlier : opened past <+: parents := by
      rw [opened_concat] at known
      exact (List.prefix_append _ _).trans known
    have before := ih earlier
    have tracks := history.tracks.2.extend earlier
    intro query other b
    rw [lastWritten_concat, ← before query other b]
    rcases perform_cases f call with ⟨enclosing, rfl, done⟩ |
      ⟨e, distance, name, a, target, write, reached, done⟩ | ⟨same, undone, -⟩
    · have none_written : ∀ b, ¬ Writes parents query other
          (.new enclosing, (f.perform (.new enclosing)).1) b := by
        rintro b ⟨_, _, write, -⟩
        cases write
      rw [done] at none_written ⊢
      rw [get_grow]
      simp [none_written]
    · have there := goes e (Call.scope_of_write write)
      have written : ∀ b, Writes parents query other (call, (f.perform call).1) b ↔
          (query = target ∧ other = name) ∧ b = a := by
        intro b
        constructor
        · rintro ⟨e', distance', write', -, leads⟩
          cases write.symm.trans write'
          cases reached.symm.trans ((tracks.leads_iff there).mpr leads)
          exact ⟨⟨rfl, rfl⟩, rfl⟩
        · rintro ⟨⟨rfl, rfl⟩, rfl⟩
          exact ⟨e, distance, write, by rw [done], (tracks.leads_iff there).mp reached⟩
      simp only [written]
      rw [done, get_define f target query name other a (tracks.lt_size there reached)]
      by_cases here : query = target ∧ other = name
      · simp [here, eq_comm]
      · simp [here]
    · have none_written : ∀ b, ¬ Writes parents query other (call, (f.perform call).1) b := by
        rintro b ⟨_, _, -, answered, -⟩
        exact undone answered
      rw [same]
      simp [none_written]

theorem History.get_eq_ok (history : History past f) :
    f.get e name = .ok a ↔ Latest past e name a := history.reflects List.prefix_rfl e name a

theorem get_eq_error : f.get e name = .error (.unbound name) ↔ ∀ a, f.get e name ≠ .ok a := by
  unfold get
  cases (f.bindings e).get? name <;> simp

theorem History.get_eq_unbound (history : History past f) :
    f.get e name = .error (.unbound name) ↔ Never past e name := by
  rw [get_eq_error]
  simp only [ne_eq, history.get_eq_ok]
  constructor
  · intro unwritten
    rcases lastWritten_or_never (Writes (opened past) e name) past with ⟨a, latest⟩ | never
    · exact absurd latest (unwritten a)
    · exact never
  · intro never a
    exact never.not_lastWritten

theorem History.contains_iff (history : History past f) :
    f.contains e name = true ↔ ∃ a, Latest past e name a := by
  rw [contains_iff_get]
  simp only [history.get_eq_ok]

theorem perform_read (read : call.read? = some (e, distance, name))
    (reached : f.ancestor e distance = .ok target) :
    (f.perform call).1 = (f.get target name).map .value := by
  cases call with
  | get =>
    cases read
    cases reached
    rfl
  | getAt =>
    cases read
    rw [perform, getAt, reached]
    rfl
  | new | define | assign | assignAt | contains | ancestor => cases read

theorem perform_tooFar (reach : call.reach? = some (e, distance)) :
    (f.perform call).1 = .error (.tooFar distance) ↔
      f.ancestor e distance = .error (.tooFar distance) := by
  cases call with
  | assignAt =>
    cases reach
    rw [perform, assignAt]
    cases f.ancestor e distance <;> simp [settle, bind, Except.bind, pure, Except.pure]
  | getAt =>
    cases reach
    rw [perform, getAt]
    cases f.ancestor e distance with
    | error => simp [Except.map, bind, Except.bind]
    | ok target =>
      simp only [bind, Except.bind, get]
      cases (f.bindings target).get? _ <;> simp [Except.map]
  | ancestor =>
    cases reach
    rw [perform]
    cases f.ancestor e distance <;> simp [Except.map]
  | new | define | assign | get | contains => cases reach

theorem Call.scope_of_reach (reach : call.reach? = some (e, distance)) : call.scope? = some e := by
  cases call <;> cases reach <;> rfl

theorem Call.scope_of_read {entry : Int × String} (read : call.read? = some (e, entry)) :
    call.scope? = some e := by
  cases call <;> cases read <;> rfl

theorem ancestor_add {middle : ScopeId} {i j : Int} (natural : 0 ≤ i) (natural' : 0 ≤ j)
    (reached : f.ancestor e i = .ok middle) :
    f.ancestor middle j = .ok target ↔ f.ancestor e (i + j) = .ok target := by
  have sum : (i + j).toNat = i.toNat + j.toNat := by omega
  rw [ancestor_eq_ok] at reached
  rw [ancestor_eq_ok, ancestor_eq_ok, sum, outward_add, reached, Option.bind_some]

/-- The calls so far tell what the next one answers. -/
theorem History.follows (history : History past f) (goes : call.Goes f) :
    Follows past f call (f.perform call).1 (f.perform call).2 := by
  obtain ⟨counted, tracks⟩ := history.tracks
  refine ⟨?_, ?_, ?_, ?_, ?_, ?_, ?_, ?_, ?_, ?_, ?_, ?_⟩
  · rintro enclosing rfl
    rw [counted]
    rfl
  · rintro e name a rfl
    rfl
  · rintro e name a rfl
    rw [← history.contains_iff, ← history.get_eq_unbound, get_eq_error]
    by_cases bound : f.contains e name = true
    · obtain ⟨b, found⟩ := contains_iff_get.mp bound
      rw [perform, assign, if_pos bound, settle]
      simp [bound, found]
    · have missing : ∀ b, f.get e name ≠ .ok b :=
        fun b found => bound (contains_iff_get.mpr ⟨b, found⟩)
      rw [perform, assign, if_neg bound, settle]
      simp [bound, missing]
  · rintro e distance name a target rfl leads
    have reached := (tracks.leads_iff (goes e rfl)).mpr leads
    rw [perform, assignAt, reached]
    rfl
  · intro e distance name target read leads
    have there := goes e (Call.scope_of_read read)
    rw [perform_read read ((tracks.leads_iff there).mpr leads), ← history.get_eq_unbound]
    simp only [← history.get_eq_ok]
    cases f.get target name <;> simp [Except.map]
  · rintro e name rfl
    exact ⟨f.contains e name, rfl, history.contains_iff⟩
  · rintro e distance target rfl
    rw [← tracks.leads_iff (goes e rfl), perform]
    cases f.ancestor e distance <;> simp [Except.map]
  · intro e distance reach
    have there := goes e (Call.scope_of_reach reach)
    obtain ⟨ancestors, lineage, far⟩ := tracks.tooFar_iff there distance
    exact ⟨ancestors, lineage, (perform_tooFar reach).trans far⟩
  · rintro e distance rfl near
    have none_outward : distance.toNat = 0 := by omega
    rw [perform, ancestor, none_outward]
    rfl
  · rintro e middle i j rfl natural natural' reached target
    rw [← ancestor_add natural natural' reached, perform]
    cases f.ancestor middle j <;> simp [Except.map]
  · intro error failed
    rcases perform_cases f call with ⟨enclosing, rfl, done⟩ | ⟨_, _, _, _, _, _, _, done⟩ | ⟨same, -, -⟩
    · rw [done] at failed
      cases failed
    · rw [done] at failed
      cases failed
    · exact same
  · intro unwritten old
    rcases perform_cases f call with ⟨enclosing, rfl, -⟩ | ⟨_, _, _, _, _, write, -, -⟩ | ⟨same, -, -⟩
    · exact absurd rfl (old enclosing)
    · cases unwritten.symm.trans write
    · exact same

/-- In every history each call answers what the calls before it tell: a read by any scope and
distance gives what the latest write to the same scope stored, whatever way that one took, and a
call that fails changes nothing. -/
theorem follows_of_history {events : List (Event α)} {last : Forest α}
    (history : History events last) :
    ∀ before call answer after, events = before ++ (call, answer) :: after →
      ∃ f g, History before f ∧ History (before ++ [(call, answer)]) g ∧
        Follows before f call answer g := by
  induction history with
  | nil =>
    intro before call answer after split
    cases before <;> cases split
  | @concat past f next history goes ih =>
    intro before call answer after split
    rcases List.eq_nil_or_concat after with rfl | ⟨others, final, rfl⟩
    · obtain ⟨rfl, same⟩ := List.append_inj' split rfl
      cases same
      exact ⟨f, _, history, .concat history goes, history.follows goes⟩
    · rw [List.concat_eq_append, ← List.cons_append, ← List.append_assoc] at split
      exact ih before call answer others (List.append_inj' split rfl).1

/-- Two scopes share one, in which the first of them binds a name; an assignment in the second fails,
and a read from the second gives what the first one stored. -/
theorem follows_of_sharing :
    let past : List (Event Nat) :=
      [(.new none, .ok (.scope 0)), (.new (some 0), .ok (.scope 1)), (.new (some 0), .ok (.scope 2)),
        (.assignAt 1 1 "x" 5, .ok .done), (.assign 2 "x" 7, .error (.unbound "x"))]
    ∃ last, History (past ++ [(.getAt 2 1 "x", .ok (.value 5))]) last ∧ Latest past 0 "x" 5 := by
  intro past
  have root : History _ _ := .concat .nil (show (Call.new (α := Nat) none).Goes _ by decide)
  have left : History _ _ := .concat root (show (Call.new (some 0)).Goes _ by decide)
  have right : History _ _ := .concat left (show (Call.new (some 0)).Goes _ by decide)
  have bound : History _ _ := .concat right (show (Call.assignAt 1 1 "x" 5).Goes _ by decide)
  have failed : History past _ := .concat bound (show (Call.assign 2 "x" 7).Goes _ by decide)
  have read : History (past ++ [(.getAt 2 1 "x", .ok (.value 5))]) _ :=
    .concat failed (show (Call.getAt 2 1 "x").Goes _ by decide)
  have leads : Leads (opened past) 2 1 0 := ⟨[0], .inside rfl (.outermost rfl), rfl⟩
  obtain ⟨f, g, -, -, follows⟩ := follows_of_history read past _ _ [] rfl
  exact ⟨_, read, ((follows.read 2 1 "x" 0 rfl leads).1 5).mp rfl⟩

end LoxMachine.Forest
