import LoxMachine.Proofs.Machine.Blame
import LoxMachine.Proofs.Recode.Later

namespace LoxMachine

open Static

/-- Failures of two runs. A complaint is raised by the phrase at the same node in both, so many lines
further down in the second if the node is `inside`, and at the same line if it is not. -/
inductive Failure.Moved (one both : NodeId → Token → Complaint → Prop) (inside : NodeId → Prop)
    (lines : Nat) : Failure → Failure → Prop
  | inside {id t complaint} (here : inside id) (raised : one id t complaint)
      (again : both id (t.later lines) complaint) :
    Moved one both inside lines (.complaint complaint t.line) (.complaint complaint (t.line + lines))
  | outside {id t complaint} (elsewhere : ¬ inside id) (raised : one id t complaint)
      (again : both id t complaint) :
    Moved one both inside lines (.complaint complaint t.line) (.complaint complaint t.line)
  | host (text : String) (line : Option Int) (file : Option String) :
    Moved one both inside lines (.host text line file) (.host text line file)
  | overflow : Moved one both inside lines .overflow .overflow
  | callDepth : Moved one both inside lines .callDepth .callDepth

/-- Outcomes of which the second is that of a text further down. -/
inductive Outcome.Moved (one both : NodeId → Token → Complaint → Prop) (inside : NodeId → Prop)
    (lines : Nat) : Outcome → Outcome → Prop
  | done : Moved one both inside lines .done .done
  | failed {f other : Failure} (alike : f.Moved one both inside lines other) :
    Moved one both inside lines (.failed f) (.failed other)
  | unfinished : Moved one both inside lines .unfinished .unfinished

variable {lo lines : Nat} {G : Occurrence → Prop} {shape : List Origin} {further : List Stmt}
  {before : Record} {c c' : Setting} {m other : Machine} {id : NodeId} {t : Token}

theorem Expr.Fits.blamed {p : Site} {e : Expr} (fits : e.Fits G p) (blamed : e.blame = some (id, t)) :
    ∃ o, G o ∧ o.id? = some id := by
  cases e with
  | literal | logical | grouping => cases blamed
  | read use =>
    cases blamed
    exact ⟨_, fits.1, rfl⟩
  | this own keyword =>
    cases blamed
    exact ⟨_, fits.2.1.1, rfl⟩
  | super own keyword method =>
    cases blamed
    exact ⟨_, fits.2.1, rfl⟩
  | assign own name value =>
    cases blamed
    exact ⟨_, fits.2.2, rfl⟩
  | unary | binary | call | get | set =>
    cases blamed
    exact ⟨_, fits.1, rfl⟩

theorem Stmt.Fits.blamed {context : Context} {levels : List Level} {s : Stmt}
    (fits : s.Fits G context levels) (blamed : s.blame = some (id, t)) : ∃ o, G o ∧ o.id? = some id := by
  cases s with
  | classDecl own name superclass methods =>
    cases superclass with
    | none => cases blamed
    | some use =>
      cases blamed
      exact ⟨_, fits.2.2.1.1, rfl⟩
  | _ => cases blamed

theorem Expr.blame_recode (e : Expr) :
    (e.recode (Recoding.laterFrom lo lines)).blame =
      e.blame.map fun (id, t) => (id, if lo ≤ id then t.later lines else t) := by
  cases e <;> rfl

theorem Stmt.blame_recode (s : Stmt) :
    (s.recode (Recoding.laterFrom lo lines)).blame =
      s.blame.map fun (id, t) => (id, if lo ≤ id then t.later lines else t) := by
  cases s with
  | classDecl id name superclass methods => cases superclass <;> rfl
  | branch id condition yes no => cases no <;> rfl
  | _ => rfl

theorem Control.Recoded.blame {control next : Control}
    (alike : control.Recoded (.laterFrom lo lines) G next) :
    next.blame = control.blame.map fun (id, t) => (id, if lo ≤ id then t.later lines else t) := by
  cases alike with
  | evaluate e => exact e.blame_recode
  | execute s => exact s.blame_recode
  | value | done | returning | failing => rfl

namespace Machine

theorem Fits.blamed (fits : m.Fits G shape) (blamed : m.control.blame = some (id, t)) :
    ∃ o, G o ∧ o.id? = some id := by
  cases fits with
  | evaluate p control _ _ fits =>
    rw [control] at blamed
    exact fits.blamed blamed
  | execute context levels control _ _ fits =>
    rw [control] at blamed
    exact fits.blamed blamed
  | value _ control | done _ _ control | returning _ _ control | failing _ control =>
    rw [control] at blamed
    cases blamed

theorem Recoded.isFailing {ϕ : Recoding} (alike : m.control.Recoded ϕ G other.control) :
    other.control.isFailing = m.control.isFailing := by
  generalize m.control = control at alike
  generalize other.control = next at alike
  cases alike <;> rfl

theorem length_of_framesRecoded {ϕ : Recoding} {e : ScopeId} {frames others : List Frame}
    (recoded : FramesRecoded ϕ G shape further e frames others) : others.length = frames.length := by
  induction recoded with
  | last body => rfl
  | cons _ _ ih => exact congrArg (· + 1) ih

theorem Recoded.length {ϕ : Recoding} (recoded : m.Recoded ϕ G shape further before other) :
    other.frames.length = m.frames.length := by
  cases recoded with
  | going parallel => exact length_of_framesRecoded parallel.frames
  | ended _ _ left right => rw [left, right]

section Runs

variable {k : Nat}
  (along : ∀ i, ∃ shape, (run c i m).Fits G shape ∧
    (run c i m).Recoded (.laterFrom lo lines) G shape further before (run c' (k + i) other))

include along

theorem Works.recoded {j n : Nat} (works : Works c m j n) : Works c' other (k + j) (k + n) := by
  have length (i : Nat) : (run c' (k + i) other).frames.length = (run c i m).frames.length := by
    obtain ⟨_, _, alike⟩ := along i
    exact alike.length
  refine ⟨Nat.add_le_add_left works.order k, fun sooner => ?_, fun i after early => ?_⟩
  · obtain ⟨⟨a, control⟩, one_more⟩ := works.taking (Nat.lt_of_add_lt_add_left sooner)
    refine ⟨?_, by rw [length, length, one_more]⟩
    obtain ⟨_, _, alike⟩ := along n
    have next := alike.control
    rw [control] at next
    generalize (run c' (k + n) other).control = reached at next
    cases next
    exact ⟨_, rfl⟩
  · have later := Nat.le_of_lt (Nat.lt_of_le_of_lt (Nat.le_add_right k j) after)
    obtain ⟨more, rfl⟩ := Nat.exists_eq_add_of_le later
    rw [length, length]
    exact works.unended more (Nat.lt_of_add_lt_add_left after) (Nat.le_of_add_le_add_left early)

theorem Raises.recoded {complaint complaint' : Complaint} {id' : NodeId} {t' : Token}
    (one : Raises c m id t complaint) (two : Raises c' other id' t' complaint') :
    id' = id ∧ t' = if lo ≤ id then t.later lines else t := by
  obtain ⟨j, n, works, begun, fine, failed⟩ := one
  obtain ⟨j', n', works', begun', fine', failed'⟩ := two
  obtain ⟨_, _, alike⟩ := along n
  obtain ⟨_, _, next⟩ := along (n + 1)
  have still := (Recoded.isFailing alike.control).trans fine
  obtain ⟨f, fails⟩ := exists_failing ((Recoded.isFailing next.control).trans (congrArg _ failed))
  obtain rfl := failing_once still fails fine' failed'
  obtain ⟨_, _, first⟩ := along j
  have blamed := first.control.blame
  rw [begun, Option.map_some] at blamed
  obtain rfl := (works.recoded along).unique works' blamed begun'
  cases blamed.symm.trans begun'
  exact ⟨rfl, rfl⟩

/-- What a run that corresponds complains about is the same, further down if it is `inside`. -/
theorem moved_of_recoded {inside : NodeId → Prop}
    (placed : ∀ o, G o → ∀ i, o.id? = some i → inside i ∧ lo ≤ i ∨ ¬ inside i ∧ i < lo)
    (silent : ∀ frame ∈ m.frames, frame.blame = none) (fine : m.control.isFailing = false)
    (silent' : ∀ frame ∈ other.frames, frame.blame = none)
    (fine' : other.control.isFailing = false) {n : Nat} {f next : Failure}
    (failed : (run c n m).control = .failing f)
    (failed' : (run c' (k + n) other).control = .failing next)
    (alike : f.Recoded (.laterFrom lo lines) G next) :
    f.Moved (Raises c m) (Raises c' other) inside lines next := by
  have complained : ∀ {complaint line line'}, f = .complaint complaint line →
      next = .complaint complaint line' →
      f.Moved (Raises c m) (Raises c' other) inside lines next := by
    rintro complaint line line' rfl rfl
    obtain ⟨id, t, rfl, one⟩ := exists_raises silent fine failed
    obtain ⟨id', t', rfl, two⟩ := exists_raises silent' fine' failed'
    obtain ⟨rfl, rfl⟩ := one.recoded along two
    have raised := one
    obtain ⟨j, _, _, begun, _⟩ := raised
    obtain ⟨_, fits, _⟩ := along j
    obtain ⟨o, known, own⟩ := fits.blamed begun
    rcases placed o known _ own with ⟨here, above⟩ | ⟨elsewhere, below⟩
    · rw [if_pos above] at two ⊢
      exact .inside here one two
    · rw [if_neg (Nat.not_le_of_lt below)] at two ⊢
      exact .outside elsewhere one two
  cases alike with
  | use known complaint => exact complained rfl rfl
  | mark known alike =>
    cases alike.eq (laterFrom_keepsWords lo lines)
    exact complained rfl rfl
  | host text line file => exact .host text line file
  | overflow => exact .overflow
  | callDepth => exact .callDepth

end Runs

end Machine

end LoxMachine
