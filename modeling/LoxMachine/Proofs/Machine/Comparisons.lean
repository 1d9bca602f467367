import LoxMachine.Proofs.Machine.Arithmetic
import LoxMachine.Proofs.Value.Equality

namespace LoxMachine

def comparisons : List Symbol :=
  [.less, .lessEqual, .greater, .greaterEqual, .equalEqual, .bangEqual]

def Symbol.holds (x y : ℚ) : Symbol → Prop
  | .less => x < y
  | .lessEqual => x ≤ y
  | .greater => y < x
  | .greaterEqual => y ≤ x
  | .equalEqual => x = y
  | .bangEqual => x ≠ y
  | _ => False

namespace Machine

variable {c : Setting} {m k last : Machine}

theorem applyBinary_compares (form : Unit → String) {operator : Token} {s : Symbol}
    (kind : operator.kind = .symbol s) (compares : s ∈ comparisons) (a b : Number) :
    ∃ truth : Bool, applyBinary form operator (.number a) (.number b) = .ok (.bool truth) ∧
      (truth = true ↔ s.holds a.value b.value) := by
  have order := Number.compares_compare a b
  simp only [comparisons, List.mem_cons, List.not_mem_nil, or_false] at compares
  unfold applyBinary applyNumbers
  rw [kind]
  rcases compares with rfl | rfl | rfl | rfl | rfl | rfl
  · refine ⟨_, rfl, ?_⟩
    rw [beq_iff_eq]
    exact order.eq_lt
  · refine ⟨_, rfl, ?_⟩
    rw [bne_iff_ne, ne_eq, order.eq_gt]
    exact not_lt
  · refine ⟨_, rfl, ?_⟩
    rw [beq_iff_eq]
    exact order.eq_gt
  · refine ⟨_, rfl, ?_⟩
    rw [bne_iff_ne, ne_eq, order.eq_lt]
    exact not_lt
  · exact ⟨_, rfl, Number.sameValue_iff a b⟩
  · refine ⟨_, rfl, ?_⟩
    rw [Bool.not_eq_true', ← Bool.not_eq_true]
    exact not_congr (Number.sameValue_iff a b)

/-- What the comparisons tell of numbers. -/
structure Coherent (tells : Symbol → Number → Number → Bool) : Prop where
  exact_less : ∀ a b, tells .less a b = true ↔ a.value < b.value
  exact_equal : ∀ a b, tells .equalEqual a b = true ↔ a.value = b.value
  equality : ∀ a b, tells .equalEqual a b = (Value.number a).isEqual (.number b)
  trichotomy : ∀ a b, [tells .less a b, tells .equalEqual a b, tells .greater a b].count true = 1
  at_most : ∀ a b, tells .lessEqual a b = (tells .less a b || tells .equalEqual a b)
  mirror : ∀ a b, tells .greater a b = tells .less b a
  mirror_equal : ∀ a b, tells .greaterEqual a b = tells .lessEqual b a
  differ : ∀ a b, tells .bangEqual a b = !tells .equalEqual a b
  trans : ∀ a b d, tells .less a b = true → tells .less b d = true → tells .less a d = true
  forms : ∀ s a a' b b', tells .equalEqual a a' = true → tells .equalEqual b b' = true →
    tells s a b = tells s a' b'
  zeros : ∀ negative coefficient exponent (k : ℕ), tells .equalEqual ⟨negative, coefficient, exponent⟩
    ⟨negative, coefficient * 10 ^ k, exponent - k⟩ = true
  zero : ∀ negative negative' exponent exponent',
    tells .equalEqual ⟨negative, 0, exponent⟩ ⟨negative', 0, exponent'⟩ = true

/-- An expression with the operator between operands that come to values comes to a truth value. -/
def Judges (operator : Symbol) (v w : Value) (truth : Bool) : Prop :=
  ∀ (c : Setting) (m k last : Machine) (id : NodeId) (t : Token) (left right : Expr)
    (waiting : List Frame), t.kind = .symbol operator →
    Evaluates c m left v k → Evaluates c k right w last →
    ∃ n, run c n { m with control := .evaluate (.binary id left t right), frames := waiting } =
      { last.above waiting with control := .value (.bool truth) }

theorem judges_of_applyBinary {operator : Symbol} {v w : Value} {truth : Bool}
    (applied : ∀ form t, t.kind = .symbol operator → applyBinary form t v w = .ok (.bool truth)) :
    Judges operator v w truth := by
  intro c m k last id t left right waiting kind first second
  obtain ⟨n, comes⟩ := run_binary id t first second waiting
  rw [applied _ t kind] at comes
  exact ⟨n, comes⟩

theorem coherent_of_holds {tells : Symbol → Number → Number → Bool}
    (holds : ∀ s a b, tells s a b = true ↔ s.holds a.value b.value) : Coherent tells := by
  have agree {s s' : Symbol} {a b a' b' : Number}
      (same : s.holds a.value b.value ↔ s'.holds a'.value b'.value) : tells s a b = tells s' a' b' := by
    rw [Bool.eq_iff_iff, holds, holds]
    exact same
  refine ⟨fun a b => holds .less a b, fun a b => holds .equalEqual a b, ?_, ?_, ?_,
    fun a b => agree Iff.rfl, fun a b => agree Iff.rfl, ?_, ?_, ?_, ?_, ?_⟩
  · intro a b
    rw [Bool.eq_iff_iff, holds]
    exact (Number.sameValue_iff a b).symm
  · intro a b
    have less := holds .less a b
    have equal := holds .equalEqual a b
    have greater := holds .greater a b
    rcases lt_trichotomy a.value b.value with below | same | above
    · rw [less.mpr below, Bool.eq_false_iff.mpr (mt equal.mp below.ne),
        Bool.eq_false_iff.mpr (mt greater.mp below.not_gt)]
      rfl
    · rw [Bool.eq_false_iff.mpr (mt less.mp same.not_lt), equal.mpr same,
        Bool.eq_false_iff.mpr (mt greater.mp same.not_gt)]
      rfl
    · rw [Bool.eq_false_iff.mpr (mt less.mp above.not_gt), Bool.eq_false_iff.mpr (mt equal.mp above.ne'),
        greater.mpr above]
      rfl
  · intro a b
    rw [Bool.eq_iff_iff, Bool.or_eq_true, holds, holds, holds]
    exact le_iff_lt_or_eq
  · intro a b
    rw [Bool.eq_iff_iff, Bool.not_eq_true', ← Bool.not_eq_true, holds, holds]
    exact Iff.rfl
  · intro a b d first second
    exact (holds .less a d).mpr (((holds .less a b).mp first).trans ((holds .less b d).mp second))
  · intro s a a' b b' first second
    apply agree
    rw [(holds .equalEqual a a').mp first, (holds .equalEqual b b').mp second]
  · intro negative coefficient exponent k
    apply (holds _ _ _).mpr
    exact (Number.value_zeros negative coefficient exponent k).symm
  · intro negative negative' exponent exponent'
    apply (holds _ _ _).mpr
    exact (Number.isZero_iff.mp rfl).trans (Number.isZero_iff.mp rfl).symm

/-- Equality is an equivalence within the kinds of values, and evaluating a comparison of two
numbers always comes to what one coherent order of the exact values tells. -/
theorem comparisons_coherent :
    (Equivalence (fun v w : Value => v.isEqual w = true) ∧
      (∀ v w : Value, v.isEqual w = true → v.kind = w.kind) ∧
      ∀ v w, Judges .equalEqual v w (v.isEqual w) ∧ Judges .bangEqual v w !v.isEqual w) ∧
    ∃ tells : Symbol → Number → Number → Bool, Coherent tells ∧
      ∀ s ∈ comparisons, ∀ a b, Judges s (.number a) (.number b) (tells s a b) := by
  classical
  refine ⟨⟨Value.isEqual_equivalence, fun _ _ => Value.kind_of_isEqual, fun v w => ⟨?_, ?_⟩⟩,
    fun s a b => decide (s.holds a.value b.value), coherent_of_holds fun s a b => decide_eq_true_iff, ?_⟩
  · apply judges_of_applyBinary
    intro form t kind
    unfold applyBinary
    rw [kind]
  · apply judges_of_applyBinary
    intro form t kind
    unfold applyBinary
    rw [kind]
  · intro s compares a b
    apply judges_of_applyBinary
    intro form t kind
    obtain ⟨truth, applied, told⟩ := applyBinary_compares form kind compares a b
    rw [applied, Bool.eq_iff_iff.mpr (told.trans decide_eq_true_iff.symm)]

/-- Numbers of thirty digits that differ in the last one, in two forms. -/
theorem comparison_of_long_literals :
    let c : Setting := ⟨[], 9⟩
    let m : Machine := ⟨.done, [], Store.globals, 0, .initial, [], []⟩
    let greater : Token := ⟨.symbol .greater, ">", 1⟩
    let e := betweenLiterals greater ⟨false, 10 ^ 29 + 1, 0⟩ ⟨false, 10 ^ 30, -1⟩
    ∃ n, ∃ last : Machine, run c n { m with control := .evaluate e } =
      { last with control := .value (.bool true) } := by
  intro c m greater e
  obtain ⟨-, tells, coherent, judged⟩ := comparisons_coherent
  have literal (m : Machine) (id : NodeId) (a : Number) : Evaluates c m (.literal id (.number a))
      (.number a) { m with control := .value (.number a), frames := [] } := ⟨⟨1, rfl⟩, rfl, rfl⟩
  obtain ⟨n, comes⟩ := judged .greater (by decide) ⟨false, 10 ^ 29 + 1, 0⟩ ⟨false, 10 ^ 30, -1⟩ c m _ _ 3
    greater (.literal 1 _) (.literal 2 _) [] rfl (literal m 1 _) (literal _ 2 _)
  have told : tells .greater ⟨false, 10 ^ 29 + 1, 0⟩ ⟨false, 10 ^ 30, -1⟩ = true := by
    rw [coherent.mirror, coherent.exact_less]
    norm_num [Number.value, Number.signed]
  rw [told] at comes
  exact ⟨n, _, comes⟩

end Machine

end LoxMachine
