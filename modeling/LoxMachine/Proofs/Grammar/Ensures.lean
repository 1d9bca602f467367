import LoxMachine.Grammar.Reader
import LoxMachine.Proofs.Token.Genuine

namespace LoxMachine

def Cursor.Genuine (c : Cursor) : Prop := ∀ t ∈ c.rest, t.Genuine

theorem Cursor.Genuine.current {c : Cursor} (genuine : c.Genuine) : c.current.Genuine := by
  unfold Cursor.current
  cases left : c.rest with
  | nil => exact True.intro
  | cons t rest => exact genuine t (by simp [left])

theorem Cursor.Genuine.next {c : Cursor} (genuine : c.Genuine) : c.next.Genuine := by
  intro t member
  unfold Cursor.next at member
  split at member
  · rename_i first rest left
    split at member
    · exact genuine t member
    · exact genuine t (by rw [left]; exact List.mem_cons_of_mem _ member)
  · exact genuine t member

theorem Cursor.next_nextId (c : Cursor) : c.next.nextId = c.nextId := by
  unfold Cursor.next
  split
  · split <;> rfl
  · rfl

namespace Reader

variable {α β : Type}

theorem bind_ok {r : Reader α} {f : α → Reader β} {c c' : Cursor} {b : β} :
    (r >>= f) c = .ok b c' ↔ ∃ a mid, r c = .ok a mid ∧ f a mid = .ok b c' := by
  change EStateM.bind r f c = .ok b c' ↔ _
  unfold EStateM.bind
  cases first : r c with
  | ok a mid =>
    constructor
    · intro second
      exact ⟨a, mid, rfl, second⟩
    · rintro ⟨_, _, ⟨⟩, second⟩
      exact second
  | error e mid => simp

/-- When numbers from `lo` on are free, the reader uses up numbers from there on, and if it succeeds
it leaves those from `hi` on and builds an `a` with `Q hi a`. If `text` holds, the tokens are those
of a text. -/
def Ensures (text : Prop) (r : Reader α) (lo : Nat) (Q : Nat → α → Prop) : Prop :=
  ∀ c, (text → c.Genuine) → c.nextId = lo →
    match r c with
    | .ok a c' => lo ≤ c'.nextId ∧ (text → c'.Genuine) ∧ Q c'.nextId a
    | .error _ c' => lo ≤ c'.nextId

namespace Ensures

variable {text : Prop} {r : Reader α} {f : α → Reader β} {lo : Nat} {P : Nat → α → Prop}
  {Q : Nat → β → Prop}

theorem bind (first : Ensures text r lo P) (second : ∀ mid a, P mid a → Ensures text (f a) mid Q) :
    Ensures text (r >>= f) lo Q := by
  intro c genuine start
  have one := first c genuine start
  change match EStateM.bind r f c with | .ok b c' => _ | .error _ c' => _
  unfold EStateM.bind
  cases read : r c with
  | error e mid => simpa only [read] using one
  | ok a mid =>
    simp only [read] at one ⊢
    obtain ⟨below, still, built⟩ := one
    have other := second mid.nextId a built mid still rfl
    split at other
    · exact ⟨Nat.le_trans below other.1, other.2⟩
    · exact Nat.le_trans below other

theorem pure {a : α} (built : P lo a) : Ensures text (pure a) lo P := by
  intro c genuine start
  exact ⟨Nat.le_of_eq start.symm, genuine, start ▸ built⟩

theorem mono {P' : Nat → α → Prop} (first : Ensures text r lo P)
    (weaker : ∀ hi a, P hi a → P' hi a) :
    Ensures text r lo P' := by
  intro c genuine start
  have one := first c genuine start
  split at one
  · exact ⟨one.1, one.2.1, weaker _ _ one.2.2⟩
  · exact one

theorem map {g : α → β} (first : Ensures text r lo fun hi a => Q hi (g a)) :
    Ensures text (g <$> r) lo Q :=
  first.bind fun _ _ built => pure built

theorem unexpected (expected : Expectation) (found : Token) :
    Ensures text (Reader.unexpected expected found) lo P := by
  intro c genuine start
  exact Nat.le_of_eq start.symm

theorem current : Ensures text Reader.current lo fun hi t => hi = lo ∧ (text → t.Genuine) := by
  intro c genuine start
  exact ⟨Nat.le_of_eq start.symm, genuine, start, fun known => (genuine known).current⟩

theorem take : Ensures text Reader.take lo fun hi t => hi = lo ∧ (text → t.Genuine) := by
  intro c genuine start
  have same := c.next_nextId.trans start
  exact ⟨Nat.le_of_eq same.symm, fun known => (genuine known).next, same,
    fun known => (genuine known).current⟩

theorem takeIf (test : Token → Bool) : Ensures text (Reader.takeIf test) lo fun hi _ => hi = lo := by
  refine current.bind fun mid t seen => ?_
  split
  · refine take.bind fun after _ taken => ?_
    exact pure (taken.1.trans seen.1)
  · exact pure seen.1

theorem expect (s : Symbol) (place : Place) :
    Ensures text (Reader.expect s place) lo fun hi _ => hi = lo := by
  refine current.bind fun mid t seen => ?_
  split
  · exact take.mono fun hi _ taken => taken.1.trans seen.1
  · exact unexpected _ _

theorem expectName (role : NameRole) :
    Ensures text (Reader.expectName role) lo fun hi t => hi = lo ∧ (text → t.Ordinary) := by
  intro c genuine start
  by_cases name : c.current.kind = .identifier
  · have read : Reader.expectName role c = .ok c.current c.next := by
      change (if c.current.kind = .identifier then Reader.take else _) c = _
      rw [if_pos name]
      rfl
    have same := c.next_nextId.trans start
    rw [read]
    exact ⟨Nat.le_of_eq same.symm, fun known => (genuine known).next, same,
      fun known => (genuine known).current.ordinary name⟩
  · have read : Reader.expectName role c = .error (.unexpected (.name role) c.current) c := by
      change (if c.current.kind = .identifier then Reader.take else _) c = _
      rw [if_neg name]
      rfl
    rw [read]
    exact Nat.le_of_eq start.symm

theorem node (build : NodeId → α) :
    Ensures text (Reader.node build) lo fun hi a => hi = lo + 1 ∧ a = build lo := by
  intro c genuine start
  exact ⟨Nat.le_succ_of_le (Nat.le_of_eq start.symm), genuine, by rw [start], by rw [start]⟩

theorem repeatUpTo {test : Token → Bool} {step : α → Reader α}
    (keeps : ∀ mid a, P mid a → Ensures text (step a) mid P) (n : Nat) {a : α} (start : P lo a) :
    Ensures text (Reader.repeatUpTo test step n a) lo P := by
  induction n generalizing lo a with
  | zero => exact pure start
  | succ n ih =>
    refine current.bind fun mid t seen => ?_
    obtain ⟨rfl, _⟩ := seen
    split
    · exact (keeps _ a start).bind fun mid' a' built => ih built
    · exact pure start

theorem repeatWhile {test : Token → Bool} {step : α → Reader α}
    (keeps : ∀ mid a, P mid a → Ensures text (step a) mid P) {a : α} (start : P lo a) :
    Ensures text (Reader.repeatWhile test step a) lo P :=
  fun c => repeatUpTo keeps c.rest.length start c

theorem many {test : Token → Bool} {item : Reader α} {P : Nat → List α → Prop}
    (keeps : ∀ mid items, P mid items → Ensures text item mid fun hi a => P hi (items ++ [a]))
    (start : P lo []) : Ensures text (Reader.many test item) lo P := by
  refine (repeatWhile (P := fun hi items => P hi items.reverse) ?_ start).bind
    fun hi items built => pure built
  intro mid items built
  refine (keeps mid items.reverse built).bind fun hi a more => pure ?_
  rwa [List.reverse_cons]

theorem separated {item : Reader α} {P : Nat → List α → Prop}
    (keeps : ∀ mid items, P mid items → Ensures text item mid fun hi a => P hi (items ++ [a]))
    (start : P lo []) : Ensures text (Reader.separated item) lo P := by
  refine (keeps lo [] start).bind fun mid first one => ?_
  refine (many (P := fun hi others => P hi (first :: others)) ?_ one).bind
    fun hi others built => pure built
  intro mid' others built
  refine take.bind fun after _ taken => ?_
  obtain ⟨rfl, _⟩ := taken
  exact keeps _ (first :: others) built

theorem separatedBefore {closing : Symbol} {item : Reader α} {P : Nat → List α → Prop}
    (keeps : ∀ mid items, P mid items → Ensures text item mid fun hi a => P hi (items ++ [a]))
    (start : P lo []) : Ensures text (Reader.separatedBefore closing item) lo P := by
  refine current.bind fun mid t seen => ?_
  obtain ⟨rfl, _⟩ := seen
  split
  · exact pure start
  · exact separated keeps start

theorem optionalBefore {closing : Symbol} {item : Reader α} {P : Nat → Option α → Prop}
    (some : Ensures text item lo fun hi a => P hi (some a)) (none : P lo none) :
    Ensures text (Reader.optionalBefore closing item) lo P := by
  refine current.bind fun mid t seen => ?_
  obtain ⟨rfl, _⟩ := seen
  split
  · exact pure none
  · exact some.bind fun hi a built => pure built

end Ensures

end Reader

end LoxMachine
