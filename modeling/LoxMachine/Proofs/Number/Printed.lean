import LoxMachine.Proofs.Form.Number
import LoxMachine.Proofs.Number.Order
import LoxMachine.Proofs.Token.Written
import LoxMachine.Value.Basic

namespace LoxMachine

/-- Digits, or digits on both sides of a point. -/
inductive Numeral : List Char → Prop where
  | whole {digits : List Char} (some_digit : digits ≠ [])
      (all : ∀ c ∈ digits, Piece.isDigit c = true) : Numeral digits
  | pointed {whole fraction : List Char} (before : whole ≠ []) (behind : fraction ≠ [])
      (all : ∀ c ∈ whole ++ fraction, Piece.isDigit c = true) : Numeral (whole ++ '.' :: fraction)

theorem numeral_text {whole fraction : List Char} (some_digit : whole ≠ [])
    (all : ∀ c ∈ whole ++ fraction, Piece.isDigit c = true) :
    Numeral (Piece.number whole fraction).text := by
  cases fraction with
  | nil =>
    rw [List.append_nil] at all
    exact .whole some_digit all
  | cons c cs => exact .pointed some_digit (List.cons_ne_nil c cs) all

theorem Numeral.one_line {cs : List Char} (numeral : Numeral cs) : Text.newlines cs = 0 := by
  apply List.count_eq_zero.mpr
  intro member
  cases numeral with
  | whole _ all => exact absurd (all _ member) (by decide)
  | pointed _ _ all =>
    rcases List.mem_append.mp member with front | behind
    · exact absurd (all _ (List.mem_append_left _ front)) (by decide)
    · rcases List.mem_cons.mp behind with point | later
      · exact absurd point (by decide)
      · exact absurd (all _ (List.mem_append_right _ later)) (by decide)

/-- A text of a single number. -/
theorem tokenize_number {whole fraction : List Char} (some_digit : whole ≠ [])
    (all : ∀ c ∈ whole ++ fraction, Piece.isDigit c = true) :
    tokenize (String.ofList (Piece.number whole fraction).text) =
      .ok [⟨.number (.ofDigits whole fraction), String.ofList (Piece.number whole fraction).text, 1⟩,
        .ending 1] := by
  let word := Lexeme.number whole fraction some_digit
    (fun c member => all c (List.mem_append_left _ member))
    (fun c member => all c (List.mem_append_right _ member))
  have parted : Parted [] := fun _ absent => nomatch absent
  obtain ⟨c, cs, text, read⟩ := word.read_word parted
  have same : (Piece.number whole fraction).text = c :: cs := by
    rw [← text, List.append_nil]
    exact word.text_piece
  have scanned : Scanned 1 (c :: cs) (Scan.wordOf 1 (.number whole fraction) ++ []) :=
    .cons read rfl .nil
  have one_line := (numeral_text some_digit all).one_line
  apply tokenize_eq_ok.mpr
  rw [String.toList_ofList, one_line, same, scanned.words]
  exact ⟨scanned.sound, same ▸ rfl⟩

namespace Number

theorem natOfDigits_append_zeros (digits : List Char) (k : Nat) :
    natOfDigits (digits ++ List.replicate k '0') = natOfDigits digits * 10 ^ k := by
  induction k with
  | zero => simp
  | succ k ih =>
    rw [List.replicate_succ', ← List.append_assoc, natOfDigits, List.foldl_append]
    change 10 * natOfDigits (digits ++ List.replicate k '0') + 0 = _
    rw [ih, pow_succ]
    ring

/-- The fixed form without its sign, read as digits before and behind a point: the value stays, and
so do coefficient and exponent where no zeros are written out. -/
theorem exists_digits (n : Number) : ∃ whole fraction, whole ≠ [] ∧
    (∀ c ∈ whole ++ fraction, Piece.isDigit c = true) ∧
    n.fixedDigits = (Piece.number whole fraction).text ∧
    (ofDigits whole fraction).value = |n.value| ∧
    (n.exponent ≤ 0 → ofDigits whole fraction = ⟨false, n.coefficient, n.exponent⟩) := by
  have same {m : Number} (forms : m = ⟨false, n.coefficient, n.exponent⟩) : m.value = |n.value| := by
    rw [forms, abs_value]
    rfl
  rcases lt_trichotomy n.exponent 0 with below | none | above
  · obtain ⟨k, places⟩ : ∃ k : Nat, n.exponent = -((k + 1 : Nat) : ℤ) :=
      ⟨(-n.exponent).toNat - 1, by omega⟩
    obtain ⟨whole, fraction, written, nonempty, count, digits, coefficient⟩ := fixedDigits_places places
    have forms : ofDigits whole fraction = ⟨false, n.coefficient, n.exponent⟩ := by
      rw [ofDigits, coefficient, count, places]
    refine ⟨whole, fraction, nonempty, digits, ?_, same forms, fun _ => forms⟩
    cases fraction with
    | nil => cases count
    | cons c cs => exact written
  · have digits := n.isDigit_coefficientDigits
    have forms : ofDigits n.coefficientDigits [] = ⟨false, n.coefficient, n.exponent⟩ := by
      rw [ofDigits, List.append_nil, natOfDigits_coefficientDigits, none]
      rfl
    refine ⟨n.coefficientDigits, [], Nat.toDigits_ne_nil, ?_, fixedDigits_whole none, same forms,
      fun _ => forms⟩
    rwa [List.append_nil]
  · have not_below : ¬ n.exponent < 0 := by omega
    have not_least : ¬ n.exponent ≤ 0 := by omega
    by_cases zero : n.isZero
    · refine ⟨['0'], [], List.cons_ne_nil _ _, List.forall_mem_singleton.mpr rfl, ?_, ?_,
        fun least => absurd least not_least⟩
      · rw [fixedDigits, if_neg not_below, if_pos zero]
        rfl
      · rw [isZero_iff.mp zero, abs_zero]
        exact isZero_iff.mp rfl
    · let zeros := List.replicate n.exponent.toNat '0'
      refine ⟨n.coefficientDigits ++ zeros, [], ?_, ?_, ?_, ?_, fun least => absurd least not_least⟩
      · intro empty
        exact Nat.toDigits_ne_nil (List.append_eq_nil_iff.mp empty).1
      · rw [List.append_nil]
        intro c member
        rcases List.mem_append.mp member with digit | filled
        · exact n.isDigit_coefficientDigits c digit
        · rw [(List.mem_replicate.mp filled).2]
          rfl
      · rw [fixedDigits, if_neg not_below, if_neg zero]
        rfl
      · have scale := cast_powerOfTen above.le
        rw [powerOfTen_eq] at scale
        rw [abs_value, value, signed, ofDigits, List.append_nil, natOfDigits_append_zeros,
          natOfDigits_coefficientDigits, ← scale]
        simp

/-- What a printed number looks like, and what its text is scanned as. -/
structure PrintedAs (n : Number) (digits : List Char) (scanned : Number) : Prop where
  text : (Value.number n).text = String.ofList ((if n.value < 0 then ['-'] else []) ++ digits)
  numeral : Numeral digits
  tokens : tokenize (String.ofList digits) =
    .ok [⟨.number scanned, String.ofList digits, 1⟩, .ending 1]
  value : scanned.value = |n.value|
  form : n.value ≠ 0 → n.exponent ≤ 0 → scanned = ⟨false, n.coefficient, n.exponent⟩

theorem printed_eq (n : Number) : n.printed =
    String.ofList ((if n.value < 0 then ['-'] else []) ++
      if n.isZero then fixedDigits ⟨false, 0, zeroExponent n.exponent⟩ else n.fixedDigits) := by
  unfold printed
  by_cases zero : n.isZero
  · rw [if_pos zero, if_pos zero, isZero_iff.mp zero, if_neg (lt_irrefl 0)]
    rfl
  · rw [if_neg zero, if_neg zero, fixed, withSign]
    have sign : n.value < 0 ↔ n.negative = true := by
      rw [value_neg_iff, and_iff_left (Bool.not_eq_true _ ▸ zero)]
    simp only [sign]
    split <;> rfl

/-- Every number reads back: it is printed as a numeral, behind a sign exactly if it is below zero,
and the numeral is scanned as one number, the absolute value of the printed one. -/
theorem exists_printedAs (n : Number) : ∃ digits scanned, n.PrintedAs digits scanned := by
  by_cases zero : n.isZero
  · obtain ⟨whole, fraction, some_digit, all, written, same, -⟩ :=
      exists_digits ⟨false, 0, zeroExponent n.exponent⟩
    refine ⟨(Piece.number whole fraction).text, ofDigits whole fraction, ?_,
      numeral_text some_digit all, tokenize_number some_digit all, ?_, ?_⟩
    · rw [← written]
      exact (printed_eq n).trans (by rw [if_pos zero])
    · rw [same, isZero_iff.mp zero, abs_eq_abs]
      exact .inl (isZero_iff.mp rfl)
    · intro there
      exact absurd (isZero_iff.mp zero) there
  · obtain ⟨whole, fraction, some_digit, all, written, same, forms⟩ := n.exists_digits
    refine ⟨(Piece.number whole fraction).text, ofDigits whole fraction, ?_,
      numeral_text some_digit all, tokenize_number some_digit all, same, fun _ => forms⟩
    rw [← written]
    exact (printed_eq n).trans (by rw [if_neg zero])

example : (Value.number ⟨true, 0, -2⟩).text = "0.00" ∧ (Value.number ⟨true, 5, -3⟩).text = "-0.005" ∧
    (Value.number ⟨false, 12, 3⟩).text = "12000" := by decide

end Number

end LoxMachine
