import LoxMachine.Proofs.Machine.Evaluates
import LoxMachine.Proofs.Number.Arithmetic

namespace LoxMachine.Machine

open Number

/-- The exact result of an arithmetic operator. -/
def exactly (x y : ℚ) : Symbol → ℚ
  | .plus => x + y
  | .minus => x - y
  | .star => x * y
  | .slash => x / y
  | _ => 0

/-- The run comes to the state with the value `y`, which is `x` rounded, if it is in range, and to
the failure there if it is not. -/
structure Calculates (c : Setting) (start last : Machine) (x y : ℚ) : Prop where
  rounds : Rounds x y
  only : ∀ z, Rounds x z → z = y
  exactness : Representable x → y = x
  inside : |y| < 10 ^ (1000000 : ℤ) → ∃ r : Number, r.value = y ∧
    ∃ n, run c n start = { last with control := .value (.number r) }
  outside : 10 ^ (1000000 : ℤ) ≤ |y| →
    ∃ n, run c n start = { last with control := .failing .overflow }

variable {c : Setting} {m k last start : Machine} {x : ℚ}

theorem calculates_of_correct {result : Except RangeError Number} (correct : Correct x result)
    (comes : ∃ n, run c n start = last.giveResult (numberResult result)) :
    ∃ y, Calculates c start last x y := by
  cases result with
  | ok r =>
    obtain ⟨rounds, small⟩ := correct
    refine ⟨r.value, rounds, fun z other => other.unique rounds, fun short => rounds.unique short.rounds, ?_,
      fun large => absurd small (not_lt.mpr large)⟩
    exact fun _ => ⟨r, rfl, comes⟩
  | error e =>
    obtain ⟨y, rounds, large⟩ := correct
    refine ⟨y, rounds, fun z other => other.unique rounds, fun short => rounds.unique short.rounds,
      fun small => absurd small (not_lt.mpr large), fun _ => comes⟩

theorem run_of_step {next : Machine} {n : Nat} (going : start.isOver = false)
    (reads : run c n (step c start) = next) : run c (n + 1) start = next :=
  (run_of_going going n).trans reads

/-- When both operands have come to their values, the operator is applied to them. -/
theorem run_binary (id : NodeId) (operator : Token) {left right : Expr} {v w : Value}
    (first : Evaluates c m left v k) (second : Evaluates c k right w last) (waiting : List Frame) :
    ∃ n, run c n { m with control := .evaluate (.binary id left operator right), frames := waiting } =
      (last.above waiting).giveResult
        (applyBinary (fun _ => (Expr.binary 0 left operator right).form) operator v w) := by
  let before := Frame.leftOperand left operator right
  let between := Frame.rightOperand v left operator right
  obtain ⟨i, reads⟩ := run_evaluates first (before :: waiting)
  obtain ⟨j, reads'⟩ := run_evaluates second (between :: waiting)
  have next : step c (k.above (before :: waiting)) =
      { k with control := .evaluate right, frames := between :: waiting } := by
    simp only [step, above, first.control, first.frames, List.nil_append]
    rfl
  have ended : step c (last.above (between :: waiting)) = (last.above waiting).giveResult
      (applyBinary (fun _ => (Expr.binary 0 left operator right).form) operator v w) := by
    simp only [step, above, second.control, second.frames, List.nil_append]
    rfl
  have going : (k.above (before :: waiting)).isOver = false := by
    simp [isOver, above, first.control, first.frames]
  have going' : (last.above (between :: waiting)).isOver = false := by
    simp [isOver, above, second.control, second.frames]
  have to_right : run c (j + 1) (k.above (before :: waiting)) = last.above (between :: waiting) :=
    run_of_step going (next ▸ reads')
  have begun : run c (i + 1)
      { m with control := .evaluate (.binary id left operator right), frames := waiting } =
        k.above (before :: waiting) := run_of_step rfl reads
  refine ⟨(i + 1) + ((j + 1) + 1), ?_⟩
  rw [run_add, begun, run_add, to_right]
  exact run_of_step going' ended

theorem run_unary (id : NodeId) (operator : Token) {right : Expr} {v : Value}
    (operand : Evaluates c m right v last) (waiting : List Frame) :
    ∃ n, run c n { m with control := .evaluate (.unary id operator right), frames := waiting } =
      (last.above waiting).giveResult (applyPrefix operator v) := by
  let before := Frame.operand operator
  obtain ⟨i, reads⟩ := run_evaluates operand (before :: waiting)
  have ended : step c (last.above (before :: waiting)) =
      (last.above waiting).giveResult (applyPrefix operator v) := by
    simp only [step, above, operand.control, operand.frames, List.nil_append]
    rfl
  have going : (last.above (before :: waiting)).isOver = false := by
    simp [isOver, above, operand.control, operand.frames]
  have begun : run c (i + 1)
      { m with control := .evaluate (.unary id operator right), frames := waiting } =
        last.above (before :: waiting) := run_of_step rfl reads
  refine ⟨(i + 1) + 1, ?_⟩
  rw [run_add, begun]
  exact run_of_step going ended

/-- An arithmetic operator gives the result of its operation. -/
theorem applyBinary_correct (form : Unit → String) {operator : Token} {s : Symbol}
    (kind : operator.kind = .symbol s) (arithmetic : s ∈ [.plus, .minus, .star, .slash]) {a b : Number}
    (divides : s = .slash → b.value ≠ 0) :
    ∃ result, applyBinary form operator (.number a) (.number b) = numberResult result ∧
      Correct (exactly a.value b.value s) result := by
  simp only [List.mem_cons, List.not_mem_nil, or_false] at arithmetic
  unfold applyBinary applyNumbers
  rw [kind]
  rcases arithmetic with rfl | rfl | rfl | rfl
  · exact ⟨_, rfl, add_correct a b⟩
  · exact ⟨_, rfl, sub_correct a b⟩
  · exact ⟨_, rfl, mul_correct a b⟩
  · have there : b.isZero = false := Bool.eq_false_iff.mpr fun zero => divides rfl (isZero_iff.mp zero)
    refine ⟨_, ?_, div_correct a there⟩
    dsimp only
    rw [there]
    rfl

theorem applyBinary_zero (form : Unit → String) {operator : Token}
    (kind : operator.kind = .symbol .slash) (a : Number) {b : Number} (zero : b.value = 0) :
    applyBinary form operator (.number a) (.number b) =
      .error (.against operator (.divisionByZero (form ()))) := by
  unfold applyBinary applyNumbers
  rw [kind]
  dsimp only
  rw [isZero_iff.mpr zero]
  rfl

theorem applyPrefix_minus {operator : Token} (kind : operator.kind = .symbol .minus) (b : Number) :
    applyPrefix operator (.number b) = numberResult b.neg := by
  unfold applyPrefix Token.isSymbol
  rw [kind]
  rfl

/-- Arithmetic is exact up to one rounding: an operator between two numbers, or a minus in front of
one, gives the exact result rounded once, unless that is too large, and a division by zero of any
form is refused. -/
theorem calculates_of_evaluates (c : Setting) (m last : Machine) (id : NodeId) (operator : Token)
    (right : Expr) (b : Number) (waiting : List Frame) :
    (∀ left a k, Evaluates c m left (.number a) k → Evaluates c k right (.number b) last →
      let start := { m with control := .evaluate (.binary id left operator right), frames := waiting }
      (∀ s ∈ [Symbol.plus, .minus, .star, .slash], operator.kind = .symbol s →
        (s = .slash → b.value ≠ 0) →
          ∃ y, Calculates c start (last.above waiting) (exactly a.value b.value s) y) ∧
      (operator.kind = .symbol .slash → b.value = 0 →
        ∃ n, run c n start = (last.above waiting).complain operator
          (.divisionByZero (Expr.binary 0 left operator right).form))) ∧
    (Evaluates c m right (.number b) last → operator.kind = .symbol .minus →
      ∃ y, Calculates c { m with control := .evaluate (.unary id operator right), frames := waiting }
        (last.above waiting) (-b.value) y) := by
  refine ⟨fun left a k first second => ⟨fun s arithmetic kind divides => ?_, fun kind zero => ?_⟩,
    fun operand kind => ?_⟩
  · obtain ⟨n, comes⟩ := run_binary id operator first second waiting
    obtain ⟨result, applied, correct⟩ := applyBinary_correct
      (fun _ => (Expr.binary 0 left operator right).form) kind arithmetic divides (a := a)
    exact calculates_of_correct correct ⟨n, applied ▸ comes⟩
  · obtain ⟨n, comes⟩ := run_binary id operator first second waiting
    rw [applyBinary_zero _ kind a zero] at comes
    exact ⟨n, comes⟩
  · obtain ⟨n, comes⟩ := run_unary id operator operand waiting
    exact calculates_of_correct (neg_correct b) ⟨n, applyPrefix_minus kind b ▸ comes⟩

def betweenLiterals (operator : Token) (a b : Number) : Expr :=
  .binary 3 (.literal 1 (.number a)) operator (.literal 2 (.number b))

def ofLiteral (operator : Token) (b : Number) : Expr := .unary 3 operator (.literal 2 (.number b))

/-- Two thirds are rounded, one cannot be divided by a zero, and minus three is exact. -/
theorem calculates_of_literals :
    let c : Setting := ⟨[], 9⟩
    let m : Machine := ⟨.done, [], Store.globals, 0, .initial, [], []⟩
    let slash : Token := ⟨.symbol .slash, "/", 1⟩
    (∃ last y, Calculates c
      { m with control := .evaluate (betweenLiterals slash (ofNat 2) (ofNat 3)) } last (2 / 3) y) ∧
      (∃ n last form, run c n
        { m with control := .evaluate (betweenLiterals slash (ofNat 1) ⟨true, 0, 4⟩) } =
          complain last slash (.divisionByZero form)) ∧
      ∃ last, Calculates c
        { m with control := .evaluate (ofLiteral ⟨.symbol .minus, "-", 1⟩ (ofNat 3)) } last (-3) (-3) := by
  intro c m slash
  have value_two : (ofNat 2).value = 2 := by simp [value, signed, ofNat]
  have value_three : (ofNat 3).value = 3 := by simp [value, signed, ofNat]
  have zero : Number.value ⟨true, 0, 4⟩ = 0 := by simp [value, signed]
  have literal (m : Machine) (id : NodeId) (a : Number) : Evaluates c m (.literal id (.number a))
      (.number a) { m with control := .value (.number a), frames := [] } := ⟨⟨1, rfl⟩, rfl, rfl⟩
  refine ⟨?_, ?_, ?_⟩
  · have divided := (calculates_of_evaluates c m _ 3 slash (.literal 2 _) (ofNat 3) []).1
      (.literal 1 _) (ofNat 2) _ (literal m 1 _) (literal _ 2 _)
    obtain ⟨y, calculates⟩ := divided.1 .slash (by decide) rfl (by simp [value_three])
    rw [exactly, value_two, value_three] at calculates
    exact ⟨_, y, calculates⟩
  · have divided := (calculates_of_evaluates c m _ 3 slash (.literal 2 _) ⟨true, 0, 4⟩ []).1
      (.literal 1 _) (ofNat 1) _ (literal m 1 _) (literal _ 2 _)
    obtain ⟨n, refused⟩ := divided.2 rfl zero
    exact ⟨n, _, _, refused⟩
  · obtain ⟨y, calculates⟩ := (calculates_of_evaluates c m _ 3 ⟨.symbol .minus, "-", 1⟩
      (.literal 2 _) (ofNat 3) []).2 (literal m 2 _) rfl
    rw [value_three] at calculates
    have short : Representable (-3) := ⟨-3, 0, by decide, by decide, by simp⟩
    exact ⟨_, calculates.exactness short ▸ calculates⟩

end LoxMachine.Machine
