import LoxMachine.Number.Notation
import LoxMachine.Proofs.Token.Longest

namespace LoxMachine.Number

def Spellable (n : Number) : Prop := n.negative = false ∧ n.exponent ≤ 0

theorem spellable_ofDigits (whole fraction : List Char) : (ofDigits whole fraction).Spellable := by
  constructor
  · rfl
  · change -(fraction.length : Int) ≤ 0
    omega

def ofFixed (form : List Char) : Number :=
  ofDigits (form.takeWhile Piece.isDigit) ((form.dropWhile Piece.isDigit).drop 1)

theorem isDigit_coefficientDigits (n : Number) : ∀ c ∈ n.coefficientDigits, Piece.isDigit c = true :=
  fun _ member => Nat.isDigit_of_mem_toDigits (by decide) (by decide) member

theorem natOfDigits_coefficientDigits (n : Number) : natOfDigits n.coefficientDigits = n.coefficient :=
  Nat.ofDigitChars_toDigits (by decide) (by decide)

theorem natOfDigits_zeros (k : Nat) (digits : List Char) :
    natOfDigits (List.replicate k '0' ++ digits) = natOfDigits digits := by
  induction k with
  | zero => rfl
  | succ k ih =>
    rw [List.replicate_succ]
    exact ih

theorem fixedDigits_whole {n : Number} (whole : n.exponent = 0) :
    n.fixedDigits = n.coefficientDigits := by
  have not_below : ¬ n.exponent < 0 := by omega
  rw [fixedDigits, if_neg not_below]
  by_cases zero : n.isZero
  · rw [if_pos zero, coefficientDigits, eq_of_beq zero]
    rfl
  · rw [if_neg zero, whole]
    exact List.append_nil _

theorem fixedDigits_places {n : Number} {k : Nat} (places : n.exponent = -((k + 1 : Nat) : Int)) :
    ∃ whole fraction, n.fixedDigits = whole ++ '.' :: fraction ∧ whole ≠ [] ∧
      fraction.length = k + 1 ∧ (∀ c ∈ whole ++ fraction, Piece.isDigit c = true) ∧
      natOfDigits (whole ++ fraction) = n.coefficient := by
  have below : n.exponent < 0 := by omega
  have count : (-n.exponent).toNat = k + 1 := by omega
  rw [fixedDigits, if_pos below, count, pointed]
  let padded := List.replicate (k + 1 + 1 - n.coefficientDigits.length) '0' ++ n.coefficientDigits
  have long : k + 1 < padded.length := by
    simp only [padded, List.length_append, List.length_replicate]
    omega
  have joined : padded.take (padded.length - (k + 1)) ++ padded.drop (padded.length - (k + 1)) =
      padded := List.take_append_drop _ _
  refine ⟨padded.take (padded.length - (k + 1)), padded.drop (padded.length - (k + 1)), rfl, ?_, ?_,
    ?_, ?_⟩
  · apply List.ne_nil_of_length_pos
    rw [List.length_take]
    omega
  · rw [List.length_drop]
    omega
  · rw [joined]
    intro c member
    rcases List.mem_append.mp member with zero | digit
    · rw [(List.mem_replicate.mp zero).2]
      rfl
    · exact n.isDigit_coefficientDigits c digit
  · rw [joined]
    exact (natOfDigits_zeros _ _).trans n.natOfDigits_coefficientDigits

theorem toList_fixed {n : Number} (spellable : n.Spellable) : n.fixed.toList = n.fixedDigits := by
  rw [fixed, String.toList_ofList, withSign, spellable.1]
  rfl

theorem Spellable.places {n : Number} (spellable : n.Spellable) :
    n.exponent = 0 ∨ ∃ k : Nat, n.exponent = -((k + 1 : Nat) : Int) := by
  by_cases whole : n.exponent = 0
  · exact .inl whole
  · have below := spellable.2
    exact .inr ⟨(-n.exponent).toNat - 1, by omega⟩

theorem ofFixed_fixed {n : Number} (spellable : n.Spellable) : ofFixed n.fixed.toList = n := by
  have positive := spellable.1
  rw [toList_fixed spellable, ofFixed]
  rcases spellable.places with whole | ⟨k, places⟩
  · have digits := n.isDigit_coefficientDigits
    rw [fixedDigits_whole whole, List.takeWhile_eq_self_iff.mpr digits,
      List.dropWhile_eq_nil_iff.mpr digits]
    change ofDigits n.coefficientDigits [] = n
    rw [ofDigits, List.append_nil, natOfDigits_coefficientDigits]
    cases n
    cases positive
    cases whole
    rfl
  · obtain ⟨whole, fraction, written, -, count, digits, value⟩ := fixedDigits_places places
    have front : ∀ c ∈ whole, Piece.isDigit c = true := fun c member =>
      digits c (List.mem_append_left _ member)
    obtain ⟨taken, left⟩ := Piece.takeWhile_run (by decide : Piece.isDigit '.' = false) front fraction
    rw [written, taken, left]
    change ofDigits whole fraction = n
    rw [ofDigits, value, count, ← places]
    cases n
    cases positive
    rfl

theorem digits_fixed {n : Number} (spellable : n.Spellable) :
    ∃ c cs, n.fixed.toList = c :: cs ∧ Piece.isDigit c = true ∧
      ∀ d ∈ c :: cs, Piece.isDigit d = true ∨ d = '.' := by
  rw [toList_fixed spellable]
  rcases spellable.places with whole | ⟨k, places⟩
  · have digits := n.isDigit_coefficientDigits
    have nonempty : n.coefficientDigits ≠ [] := Nat.toDigits_ne_nil
    obtain ⟨c, cs, same⟩ := List.exists_cons_of_ne_nil nonempty
    rw [same] at digits
    rw [fixedDigits_whole whole, same]
    exact ⟨c, cs, rfl, digits c List.mem_cons_self, fun d member => .inl (digits d member)⟩
  · obtain ⟨whole, fraction, written, nonempty, -, digits, -⟩ := fixedDigits_places places
    obtain ⟨c, cs, rfl⟩ := List.exists_cons_of_ne_nil nonempty
    rw [written]
    refine ⟨c, cs ++ '.' :: fraction, rfl, digits c List.mem_cons_self, ?_⟩
    intro d member
    rw [← List.cons_append] at member
    rcases List.mem_append.mp member with front | behind
    · exact .inl (digits d (List.mem_append_left _ front))
    · rcases List.mem_cons.mp behind with point | later
      · exact .inr point
      · exact .inl (digits d (List.mem_append_right _ later))

end LoxMachine.Number
