import Mathlib.Data.List.Nodup
import LoxMachine.Proofs.Recode.Later
import LoxMachine.Proofs.Scope.Flat
import LoxMachine.Proofs.Session.Free
import LoxMachine.Proofs.Session.Renaming

namespace LoxMachine

open Static

def Failure.bare : Failure → Failure
  | .complaint c _ => .complaint c 0
  | failure => failure

def Outcome.bare : Outcome → Outcome
  | .failed f => .failed f.bare
  | outcome => outcome

def Run.bare (r : Run) : Run := { r with outcome := r.outcome.bare }

def Rejection.bare : Rejection → Rejection
  | .static e => .static e.bare
  | rejection => rejection

def resultBare : Except Rejection Run → Except Rejection Run
  | .ok r => .ok r.bare
  | .error rejection => .error rejection.bare

theorem Failure.Recoded.bare_eq {ϕ : Recoding} {G : Occurrence → Prop} {f other : Failure}
    (alike : f.Recoded ϕ G other) (keeps : (ϕ : Respelling).KeepsWords) : other.bare = f.bare := by
  cases alike with
  | use => rfl
  | mark known alike =>
    cases alike.eq keeps
    rfl
  | host | overflow | callDepth => rfl

theorem Failure.Recoded.rename_eq {ϕ : Recoding} {G : Occurrence → Prop} {f other : Failure}
    (alike : f.Recoded ϕ G other) (g : NodeId → NodeId) : other.rename g = other := by
  cases alike <;> rfl

theorem outcome_of_recoded {ϕ : Recoding} {G : Occurrence → Prop} {shape : List Origin}
    {m other : Machine} (fits : m.Fits G shape) (recoded : m.Recoded ϕ G shape [] ⟨[], []⟩ other)
    (keeps : (ϕ : Respelling).KeepsWords) :
    other.outcome.bare = m.outcome.bare ∧ ∀ g, other.outcome.rename g = other.outcome := by
  rcases Session.outcomes_of_recoded fits recoded with
    ⟨done, done'⟩ | ⟨f, f', failed, failed', alike⟩ | ⟨unfinished, unfinished'⟩
  · rw [done, done']
    exact ⟨rfl, fun _ => rfl⟩
  · rw [failed, failed']
    exact ⟨congrArg Outcome.failed (alike.bare_eq keeps),
      fun g => congrArg Outcome.failed (alike.rename_eq g)⟩
  · rw [unfinished, unfinished']
    exact ⟨rfl, fun _ => rfl⟩

/-- The numbers of the first list become those of the second one by one. Numbers before `lo` stay,
and all others go where no number of the second list is. -/
def reassign (lo hi : Nat) (ids others : List Nat) (i : Nat) : Nat :=
  if i < lo then i else if i ∈ ids then others.getD (ids.idxOf i) 0 else hi + i

section Reassign

variable {lo hi hi' : Nat} {ids others : List Nat}

theorem reassign_map (mine : Numbered lo hi ids) (length : ids.length = others.length) :
    ids.map (reassign lo hi' ids others) = others := by
  apply List.ext_getElem (by rw [List.length_map, length])
  intro k inside inside'
  rw [List.length_map] at inside
  have member : ids[k] ∈ ids := List.getElem_mem inside
  have late : ¬ ids[k] < lo := Nat.not_lt_of_le (mine.2.2 _ member).1
  have place : ids.idxOf ids[k] = k := mine.2.1.idxOf_getElem k inside
  rw [List.getElem_map, reassign, if_neg late, if_pos member, place]
  rw [List.getD_eq_getElem?_getD, List.getElem?_eq_getElem inside', Option.getD_some]

theorem reassign_mem (mine : Numbered lo hi ids) (length : ids.length = others.length) {i : Nat}
    (member : i ∈ ids) : reassign lo hi' ids others i ∈ others := by
  have there : reassign lo hi' ids others i ∈ ids.map (reassign lo hi' ids others) :=
    List.mem_map_of_mem member
  rwa [reassign_map mine length] at there

theorem reassign_of_not_mem {i : Nat} (absent : i ∉ ids) :
    i < lo ∧ reassign lo hi' ids others i = i ∨
      lo ≤ i ∧ reassign lo hi' ids others i = hi' + i := by
  rw [reassign, if_neg absent]
  rcases Nat.lt_or_ge i lo with early | late
  · exact .inl ⟨early, if_pos early⟩
  · exact .inr ⟨late, if_neg (Nat.not_lt_of_le late)⟩

theorem reassign_injective (mine : Numbered lo hi ids) (theirs : Numbered lo hi' others)
    (length : ids.length = others.length) (i j : Nat)
    (same : reassign lo hi' ids others i = reassign lo hi' ids others j) : i = j := by
  have within : ∀ {k}, k ∈ ids → lo ≤ reassign lo hi' ids others k ∧
      reassign lo hi' ids others k < hi' := fun member => theirs.2.2 _ (reassign_mem mine length member)
  by_cases one : i ∈ ids <;> by_cases two : j ∈ ids
  · have nodup : (ids.map (reassign lo hi' ids others)).Nodup := by
      rw [reassign_map mine length]
      exact theirs.2.1
    exact List.inj_on_of_nodup_map nodup one two same
  · have low := within one
    have gone := @reassign_of_not_mem lo hi' ids others j two
    omega
  · have low := within two
    have gone := @reassign_of_not_mem lo hi' ids others i one
    omega
  · have gone := @reassign_of_not_mem lo hi' ids others i one
    have gone' := @reassign_of_not_mem lo hi' ids others j two
    have below := theirs.1
    omega

end Reassign

namespace Session

variable {programs : List (List Stmt)} {held : List Value} {s : Session} {source other : String}
  {program next : List Stmt} {ds : Distances}

abbrev flattened (s : Session) : Recoding :=
  .changedFrom s.nextId Token.bare (fun _ => rfl) fun _ => rfl

theorem Accepts.flattened_eq (accepted : s.Accepts source program ds) :
    stmtsRecode s.flattened program = stmtsRecode .flat program := by
  have fit : StmtsFit (· ∈ occurrencesOf program) ⟨.topLevel, .outside⟩ [] program :=
    fit_of_accepted accepted.built.2 accepted.distances fun _ here => here
  exact fit.recode_congr fun o here =>
    changedFrom_changed fun id own => ((accepted.placed o here).numbered id own).1

theorem Accepts.shown_flat (accepted : s.Accepts source program ds) (sound : s.Sound programs held)
    (discreet : s.store.Discreet) (limits : Limits) :
    (s.shown limits (stmtsRecode .flat program) ds).bare = (s.shown limits program ds).bare ∧
      (∀ f, (s.shown limits (stmtsRecode .flat program) ds).rename f =
        s.shown limits (stmtsRecode .flat program) ds) ∧
      (s.after limits source (stmtsRecode .flat program) ds).globalTexts =
        (s.after limits source program ds).globalTexts := by
  have respects : s.flattened.Respects (Among (program :: programs)) := changedFrom_respects
  obtain ⟨shape, fits, recoded⟩ := accepted.recoded sound discreet respects
    (fun o earlier => changedFrom_still fun id own => (sound.placed o earlier).numbered id own)
    (fun _ _ _ _ => rfl) limits.depth limits.steps
  rw [accepted.flattened_eq] at recoded
  obtain ⟨outcome, names_none⟩ := outcome_of_recoded fits recoded changedFrom_keepsWords
  have beside := recoded.beside
  refine ⟨?_, fun f => ?_, globalTexts_recode fits.store beside.store⟩
  · refine (Run.mk.injEq ..).mpr ⟨outcome, ?_, ?_⟩
    · exact congrArg List.reverse (beside.printed.trans (List.append_nil _))
    · exact congrArg List.reverse (beside.classes.trans (List.append_nil _))
  · exact (Run.mk.injEq ..).mpr ⟨names_none f, rfl, rfl⟩

theorem shown_rename {f : NodeId → NodeId} (same : s.Renamed f s)
    (apart : ∀ i j, f i = f j → i = j) (discreet : s.store.Discreet) (limits : Limits)
    (source other : String) (program : List Stmt) (ds : Distances) :
    s.shown limits (stmtsRename f program) (ds.rename f) = (s.shown limits program ds).rename f ∧
      (s.after limits other (stmtsRename f program) (ds.rename f)).globalTexts =
        (s.after limits source program ds).globalTexts := by
  have read : (s.read source).1.Renamed f (s.read other).1 := by
    rw [read_eq s source, read_eq s other]
    exact ⟨same.file, same.store, same.scope, same.distances⟩
  have unchanged : (s.read source).1.store.Discreet := by
    rw [read_eq]
    exact discreet
  have both := read.interpret apart unchanged limits program ds
  rw [interpret_eq, interpret_eq] at both
  obtain ⟨left, shown⟩ := both
  refine ⟨shown, ?_⟩
  unfold globalTexts
  rw [left.globals, Table.rename, Table.recode, List.map_map]
  refine List.map_congr_left fun entry _ => Prod.ext rfl ?_
  exact entry.2.text_mapCode (keepsSignature_rename f)

/-- The two programs break the same static rule, or every use of the second has the distance that the
use in its place has in the first. -/
def ResolveAlike (program next : List Stmt) : Prop :=
  ∃ f : NodeId → NodeId, (∀ i j, f i = f j → i = j) ∧ (stmtsIds program).map f = stmtsIds next ∧
    (distancesOf next).mapError StaticError.bare =
      ((distancesOf program).mapError StaticError.bare).map (·.rename f)

/-- Two texts come to the same result but for the lines of messages, and leave the same global names
and texts. -/
def RunAlike (s : Session) (source other : String) : Prop :=
  ∀ limits, resultBare (s.run limits other).2 = resultBare (s.run limits source).2 ∧
    (s.run limits other).1.globalTexts = (s.run limits source).1.globalTexts

theorem distancesOf_of_bare {f : NodeId → NodeId} (same : stmtsBare program = stmtsBare next)
    (ids : (stmtsIds program).map f = stmtsIds next) :
    stmtsRename f (stmtsRecode .flat program) = stmtsRecode .flat next ∧
      (distancesOf next).mapError StaticError.bare =
        ((distancesOf program).mapError StaticError.bare).map (·.rename f) := by
  have changed := (stmts_redraws program next same).2 f ids
  refine ⟨changed, ?_⟩
  rw [← distancesOf_flat, ← distancesOf_flat, ← changed, distancesOf_rename]

theorem resolveAlike_of_bare {lo hi lo' hi' : Nat} (mine : Numbered lo hi (stmtsIds program))
    (theirs : Numbered lo' hi' (stmtsIds next)) (same : stmtsBare program = stmtsBare next) :
    ResolveAlike program next := by
  have from_zero : ∀ {lo hi : Nat} {ids : List Nat}, Numbered lo hi ids → Numbered 0 hi ids :=
    fun ⟨_, nodup, within⟩ =>
      ⟨Nat.zero_le _, nodup, fun i member => ⟨Nat.zero_le i, (within i member).2⟩⟩
  have length := (stmts_redraws program next same).1
  have ids := @reassign_map 0 hi hi' _ _ (from_zero mine) length
  exact ⟨_, reassign_injective (from_zero mine) (from_zero theirs) length, ids,
    (distancesOf_of_bare same ids).2⟩

/-- Texts that are read as the same tree, but for the numbers of the nodes and the lines of the
tokens, are resolved alike and run alike in every session that a host can bring about. -/
theorem alike_of_bare (reached : Reachable programs held s) (discreet : s.store.Discreet)
    (first : (s.read source).2 = .ok program) (second : (s.read other).2 = .ok next)
    (same : stmtsBare program = stmtsBare next) :
    ResolveAlike program next ∧ s.RunAlike source other := by
  have mine := (built_of_read first).1
  have theirs := (built_of_read second).1
  have length := (stmts_redraws program next same).1
  let f := reassign s.nextId (s.read other).1.nextId (stmtsIds program) (stmtsIds next)
  have apart : ∀ i j, f i = f j → i = j := reassign_injective mine theirs length
  have ids : (stmtsIds program).map f = stmtsIds next := reassign_map mine length
  obtain ⟨changed, distances⟩ := distancesOf_of_bare same ids
  refine ⟨⟨f, apart, ids, distances⟩, fun limits => ?_⟩
  cases result : distancesOf program with
  | error e =>
    rw [result] at distances
    cases result' : distancesOf next with
    | ok es =>
      rw [result'] at distances
      cases distances
    | error e' =>
      rw [result'] at distances
      have rule : e'.bare = e.bare := Except.error.inj distances
      rw [run_eq, run_eq, first, second]
      simp only [result, result']
      rw [read_eq s source, read_eq s other]
      refine ⟨?_, rfl⟩
      simp only [resultBare, Rejection.bare, rule]
  | ok ds =>
    rw [result] at distances
    cases result' : distancesOf next with
    | error e' =>
      rw [result'] at distances
      cases distances
    | ok es =>
      rw [result'] at distances
      cases Except.ok.inj distances
      have accepted : s.Accepts source program ds := ⟨first, result⟩
      have accepted' : s.Accepts other next (ds.rename f) := ⟨second, result'⟩
      have sound := sound_of_reachable reached
      obtain ⟨shown, names_none, globals⟩ := accepted.shown_flat sound discreet limits
      obtain ⟨shown', _, globals'⟩ := accepted'.shown_flat sound discreet limits
      have still : s.Renamed f s :=
        (renamed_of_free reached discreet apart fun id older => if_pos older).1
      obtain ⟨between, globals_between⟩ :=
        shown_rename still apart discreet limits source other (stmtsRecode .flat program) ds
      rw [changed, names_none f] at between
      rw [changed] at globals_between
      rw [run_of_accepts accepted, run_of_accepts accepted']
      constructor
      · refine congrArg Except.ok ?_
        rw [← shown', ← shown, between]
      · exact globals'.symm.trans (globals_between.trans globals)

end Session

end LoxMachine
