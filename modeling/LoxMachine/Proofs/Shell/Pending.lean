import LoxMachine.Proofs.Token.OpenString
import LoxMachine.Proofs.Shell.Conversation

namespace LoxMachine

namespace Shell

namespace Prompt

variable {o : Options} {p next : Prompt}

def Apart (p : Prompt) : Prop := ∀ text ∈ p.pending, (Scan.ofText text).Closed

theorem Apart.scanned (apart : p.Apart) (line : String) :
    Scan.ofText ("\n".intercalate (line :: p.pending).reverse) =
      Scan.ofTexts (line :: p.pending).reverse := by
  refine Scan.ofText_lines fun text member => apart text ?_
  rw [List.reverse_cons, List.dropLast_concat] at member
  exact List.mem_reverse.mp member

theorem closed_of_faults {source : String} (sound : (Scan.ofText source).faults = []) :
    (Scan.ofText source).Closed := by
  intro line member
  rw [sound] at member
  cases member

theorem scanned_of_isIncomplete {source : String} (waits : isIncomplete source = true) :
    ∃ tokens, tokenize source = .ok tokens := by
  unfold isIncomplete at waits
  split at waits
  · cases waits
  · rename_i tokens scanned
    exact ⟨tokens, scanned⟩

theorem Apart.feed (apart : p.Apart) {input : Typed} (fed : (p.feed o input).2 = .ok next) :
    next.Apart := by
  cases input with
  | interrupt | endOfInput => cases fed
  | line line =>
    simp only [Prompt.feed] at fed
    split at fed
    · cases fed
    · split at fed
      · cases fed
      · split at fed
        · rename_i waits
          cases fed
          obtain ⟨tokens, scanned⟩ := scanned_of_isIncomplete waits
          have sound := (Scan.tokenize_ok_iff.mp scanned).1
          rw [apart.scanned line] at sound
          intro text member
          exact closed_of_faults (Scan.faults_ofTexts sound text (List.mem_reverse.mpr member))
        · split at fed
          · cases fed
            intro text member
            cases member
          · cases fed

theorem Apart.after (apart : p.Apart) (inputs : List Typed) : (p.after o inputs).Apart := by
  induction inputs generalizing p with
  | nil => exact apart
  | cons input inputs ih =>
    rw [Prompt.after]
    split
    · rename_i next fed
      exact ih (apart.feed fed)
    · exact apart

end Prompt

/-- A text is scanned apart from what is behind it exactly if no string is open at its end, or if
there is nothing to find behind it. Whatever has been typed at the prompt and whatever line comes
next, the source that is tested and run is scanned as its lines are, one after another. -/
theorem scanned_line_by_line :
    (∀ first second, ScannedApart first second ↔ (Scan.ofText first).Closed ∨ Silent second) ∧
      ∀ (o : Options) (clock : Nat) (inputs : List Typed) (line : String),
        let lines := (line :: ((Prompt.initial clock).after o inputs).pending).reverse
        Scan.ofText ("\n".intercalate lines) = Scan.ofTexts lines := by
  refine ⟨fun first second => scannedApart_iff, fun o clock inputs line => ?_⟩
  have start : (Prompt.initial clock).Apart := nofun
  exact (start.after inputs).scanned line

/-- Faults on both sides of the newline, and a string that is open only at the end of the second
text. -/
theorem scanned_line_by_line_faulty :
    (Scan.ofText "1.\n@").Closed ∧ tokenize ("1.\n@" ++ "\n" ++ "#\n\"a") =
      .error [.unexpectedCharacter '@' 2, .unexpectedCharacter '#' 3, .unclosedString 4] := by
  have closed : (Scan.ofText "1.\n@").Closed := by
    have faults : (Scan.ofText "1.\n@").faults = [.unexpectedCharacter '@' 2] := rfl
    intro line member
    rw [faults] at member
    cases List.mem_singleton.mp member
  have apart := (scanned_line_by_line.1 "1.\n@" "#\n\"a").mpr (.inl closed)
  exact ⟨closed, (apart.rejected _).mpr ⟨List.cons_ne_nil _ _, rfl⟩⟩

end Shell

end LoxMachine
