import LoxMachine.Shell.Chunk
import LoxMachine.Proofs.Grammar.Prefixes
import LoxMachine.Proofs.Text.Search

namespace LoxMachine

open Text

def NamesEnd (text : List Char) : Prop := Shell.endOfInput.toList <:+: text

theorem namesEnd_quote (before after : List Char) :
    NamesEnd (before ++ '\'' :: after) ↔ NamesEnd before ∨ NamesEnd after :=
  infix_append_cons (by decide) before after

theorem not_namesEnd {text : List Char} (absent : occursIn Shell.endOfInput.toList text = false) :
    ¬ NamesEnd text := by
  intro names
  rw [occursIn_iff.mpr names] at absent
  cases absent

theorem Expectation.not_namesEnd (e : Expectation) : ¬ NamesEnd (e.text ++ " Got ").toList := by
  cases e with
  | expression | assignmentTarget => exact LoxMachine.not_namesEnd (by decide +kernel)
  | name role =>
    refine LoxMachine.not_namesEnd ?_
    rcases role with _ | _ | _ | _ | _ | _ | ⟨_ | _⟩ <;> decide +kernel
  | symbol s place =>
    have split : (Expectation.text (.symbol s place) ++ " Got ").toList =
        "Expect ".toList ++ '\'' :: (s.spelling.toList ++
          '\'' :: (" " ++ place.text ++ "." ++ " Got ").toList) := by
      simp [Expectation.text]
    rw [split, namesEnd_quote, namesEnd_quote]
    rintro (start | spelling | rest)
    · exact LoxMachine.not_namesEnd (by decide +kernel) start
    · exact LoxMachine.not_namesEnd (by cases s <;> decide +kernel) spelling
    · refine LoxMachine.not_namesEnd ?_ rest
      cases place with
      | afterFunctionName sort | beforeFunctionBody sort => cases sort <;> decide +kernel
      | _ => decide +kernel

theorem not_namesEnd_line (line : Nat) :
    ¬ NamesEnd (" on line " ++ toString line ++ " in " ++ Shell.typedFile).toList := by
  have digits : ∀ c ∈ (toString line).toList, c ≠ 'f' := by
    rintro c member rfl
    have digit := Nat.isDigit_of_mem_toDigits (by decide) (by decide)
      (show 'f' ∈ Nat.toDigits 10 line from by rwa [← Nat.toList_repr])
    exact absurd digit (by decide)
  refine not_infix_of_missing (c := 'f') (by decide) ?_
  simp only [String.toList_append, List.mem_append, not_or]
  exact ⟨⟨⟨by decide, fun member => digits _ member rfl⟩, by decide⟩, by decide⟩

namespace SyntaxError

/-- The input gives out before the phrase is complete. -/
def AtEnd : SyntaxError → Prop
  | unexpected _ found => found.isEnding = true
  | nesting => False

theorem toList_message (expected : Expectation) (found : Token) :
    (message Shell.typedFile (.unexpected expected found)).toList =
      (expected.text ++ " Got ").toList ++ ((foundText found).toList ++
        (" on line " ++ toString found.line ++ " in " ++ Shell.typedFile).toList) := by
  have message_eq : message Shell.typedFile (.unexpected expected found) =
      expected.text ++ " Got " ++ foundText found ++ " on line " ++ toString found.line ++ " in "
        ++ Shell.typedFile := rfl
  simp only [message_eq, String.toList_append, List.append_assoc]

/-- A message names the end of the input where the input gives out, or by the token that does not
fit. -/
theorem namesEnd_message (e : SyntaxError) :
    NamesEnd (e.message Shell.typedFile).toList ↔
      ∃ expected found, e = .unexpected expected found ∧
        (found.isEnding = true ∨ found.isEnding = false ∧ NamesEnd found.lexeme.toList) := by
  cases e with
  | nesting =>
    refine iff_of_false (LoxMachine.not_namesEnd (by decide +kernel)) ?_
    rintro ⟨_, _, ⟨⟩, _⟩
  | unexpected expected found =>
    have same : ∀ {P : Token → Prop}, (∃ wanted other, SyntaxError.unexpected expected found =
        .unexpected wanted other ∧ P other) ↔ P found :=
      ⟨by rintro ⟨_, _, ⟨⟩, holds⟩; exact holds, fun holds => ⟨_, _, rfl, holds⟩⟩
    rw [same, toList_message]
    cases ended : found.isEnding with
    | true =>
      simp only [foundText, ended, ↓reduceIte, true_or, iff_true]
      exact List.infix_append' _ _ _
    | false =>
      have quoted : (foundText found).toList = '\'' :: (found.lexeme.toList ++ ['\'']) := by
        simp [foundText, ended]
      have around := expected.not_namesEnd
      have behind := not_namesEnd_line found.line
      rw [quoted, List.cons_append, namesEnd_quote, List.append_assoc, List.singleton_append,
        namesEnd_quote]
      simp only [around, behind, false_or, or_false, Bool.false_eq_true, true_and]

end SyntaxError

namespace Shell

/-- The text can be scanned, and the grammar wants more than there is. -/
def RunsOut (source : String) : Prop :=
  ∃ tokens e, tokenize source = .ok tokens ∧ (parse 1 tokens).1 = .error e ∧ e.AtEnd

/-- The text can be scanned, and the first token that does not fit has the words for the end of the
input in its spelling. -/
def StumblesOverWords (source : String) : Prop :=
  ∃ tokens expected found, tokenize source = .ok tokens ∧
    (parse 1 tokens).1 = .error (.unexpected expected found) ∧ found.isEnding = false ∧
      NamesEnd found.lexeme.toList

theorem isIncomplete_iff (source : String) :
    isIncomplete source = true ↔ RunsOut source ∨ StumblesOverWords source := by
  unfold isIncomplete RunsOut StumblesOverWords
  cases tokenize source with
  | error faults => simp
  | ok tokens =>
    cases parsed : (parse 1 tokens).1 with
    | ok program => simp [parsed]
    | error e =>
      have names := SyntaxError.namesEnd_message e
      unfold NamesEnd at names
      simp only [parsed, occursIn_iff, names]
      constructor
      · rintro ⟨expected, found, rfl, ended | ⟨inside, words⟩⟩
        · exact .inl ⟨tokens, _, rfl, parsed, ended⟩
        · exact .inr ⟨tokens, expected, found, rfl, parsed, inside, words⟩
      · rintro (⟨_, other, ⟨⟩, same, ended⟩ | ⟨_, expected, found, ⟨⟩, same, inside, words⟩)
        · cases parsed.symm.trans same
          cases e with
          | unexpected expected found => exact ⟨expected, found, rfl, .inl ended⟩
          | nesting => exact ended.elim
        · cases parsed.symm.trans same
          exact ⟨expected, found, rfl, .inr ⟨inside, words⟩⟩

theorem not_runsOut {source : String} (stumbles : StumblesOverWords source) : ¬ RunsOut source := by
  rintro ⟨tokens, e, scanned, parsed, ended⟩
  obtain ⟨_, expected, found, scanned', parsed', inside, _⟩ := stumbles
  cases scanned.symm.trans scanned'
  cases parsed.symm.trans parsed'
  exact absurd (inside.symm.trans ended) Bool.false_ne_true

/-- The prompt asks for another line exactly where the input gives out, if and only if no token that
does not fit has the words for the end of the input in its spelling. -/
theorem asks_iff_runsOut (source : String) :
    (isIncomplete source = true ↔ RunsOut source) ↔ ¬ StumblesOverWords source := by
  rw [isIncomplete_iff]
  constructor
  · exact fun exact_here stumbles => not_runsOut stumbles (exact_here.mp (.inr stumbles))
  · intro sure
    exact ⟨fun asks => asks.resolve_right sure, .inl⟩

/-- A string that names the end of the input stands where a semicolon is wanted: the prompt asks for
another line, though the input does not give out. -/
theorem asks_of_string :
    isIncomplete "print 1 \"end of input\";" = true ∧
      ¬ RunsOut "print 1 \"end of input\";" := by
  have stumbles : StumblesOverWords "print 1 \"end of input\";" := by
    refine ⟨_, _, _, rfl, rfl, rfl, ?_⟩
    exact occursIn_iff.mp (by decide +kernel)
  exact ⟨(isIncomplete_iff _).mpr (.inr stumbles), not_runsOut stumbles⟩

/-- If some lines of text end between two tokens and can be read together with the rest of it, they
are a program by themselves or the prompt asks for another line. -/
theorem asks_or_reads {first second : String} {tokens all : List Token} {program : List Stmt}
    (scanned : tokenize first = .ok tokens)
    (whole : tokenize (first ++ "\n" ++ second) = .ok all)
    (accepted : (parse 1 all).1 = .ok program) :
    (∃ body, (parse 1 tokens).1 = .ok body) ∨ isIncomplete first = true := by
  obtain ⟨others, two⟩ := tokenize_behind scanned whole
  obtain ⟨words, rfl, -, joined⟩ := tokenize_join scanned two
  cases whole.symm.trans joined
  have closed : others.map (Token.later (newlines first.toList + 1)) ≠ [] := by
    rw [(tokenize_eq_ok.mp two).2]
    simp
  have viable : Grammar.Viable 1 words (.ending (1 + newlines first.toList)) :=
    Grammar.viable_of_cut accepted closed rfl
  refine viable.imp_right ?_
  rintro ⟨expected, stopped⟩
  exact (isIncomplete_iff first).mpr (.inl ⟨_, _, scanned, stopped, rfl⟩)

end Shell

end LoxMachine
