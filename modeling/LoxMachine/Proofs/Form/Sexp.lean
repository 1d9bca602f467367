import LoxMachine.Program.Form
import LoxMachine.Proofs.Token.Longest

namespace LoxMachine

inductive Sexp where
  | word (text : String)
  | quoted (contents : String)
  | list (items : List Sexp)

namespace Sexp

mutual

def text : Sexp → String
  | word text => text
  | quoted contents => "\"" ++ contents ++ "\""
  | list items => parenthesized (texts items)

def texts : List Sexp → List String
  | [] => []
  | s :: rest => s.text :: texts rest

end

def isDelimiter (c : Char) : Bool := c == ' ' || c == '(' || c == ')' || c == '"'

mutual

def Legible : Sexp → Prop
  | word text => text.toList ≠ [] ∧ ∀ c ∈ text.toList, isDelimiter c = false
  | quoted contents => '"' ∉ contents.toList
  | list items => AllLegible items

def AllLegible : List Sexp → Prop
  | [] => True
  | s :: rest => s.Legible ∧ AllLegible rest

end

theorem legible_word {text : String}
    (plain : text.toList ≠ [] ∧ text.toList.all (!isDelimiter ·) = true) : (word text).Legible := by
  obtain ⟨filled, all⟩ := plain
  exact ⟨filled, fun c member => by simpa using List.all_eq_true.mp all c member⟩

theorem allLegible_iff {items : List Sexp} : AllLegible items ↔ ∀ s ∈ items, s.Legible := by
  induction items with
  | nil => simp [AllLegible]
  | cons s rest ih => rw [AllLegible, List.forall_mem_cons, ih]

theorem texts_eq (items : List Sexp) : texts items = items.map text := by
  induction items with
  | nil => rfl
  | cons s rest ih => rw [texts, ih, List.map_cons]

def closing (items : List Sexp) (rest : List Char) : List Char :=
  items.flatMap (fun s => ' ' :: s.text.toList) ++ ')' :: rest

theorem intercalate_cons (first : List Char) (others : List (List Char)) :
    [' '].intercalate (first :: others) = first ++ others.flatMap (' ' :: ·) := by
  induction others generalizing first with
  | nil => simp
  | cons second others ih => rw [List.intercalate_cons_cons, ih, List.flatMap_cons]; simp

theorem text_list_nil (rest : List Char) : (list []).text.toList ++ rest = '(' :: ')' :: rest := rfl

theorem text_list_cons (s : Sexp) (items : List Sexp) (rest : List Char) :
    (list (s :: items)).text.toList ++ rest = '(' :: (s.text.toList ++ closing items rest) := by
  have words : (texts (s :: items)).map String.toList =
      s.text.toList :: items.map (·.text.toList) := by
    rw [texts_eq, List.map_map]
    rfl
  have blank : " ".toList = [' '] := rfl
  rw [text, parenthesized, String.toList_append, String.toList_append, String.toList_intercalate,
    words, blank, intercalate_cons, List.flatMap_map]
  simp [closing]

def Ends (rest : List Char) : Prop := ∀ c ∈ rest.head?, c = ' ' ∨ c = ')'

theorem ends_closing (items : List Sexp) (rest : List Char) : Ends (closing items rest) := by
  intro c first
  cases items with
  | nil => cases first; exact .inr rfl
  | cons s others => cases first; exact .inl rfl

theorem Ends.delimiter {rest : List Char} (ends : Ends rest) :
    ∀ c ∈ rest.head?, (!isDelimiter c) = false := by
  intro c first
  rcases ends c first with rfl | rfl <;> rfl

theorem first_of_text {s : Sexp} (legible : s.Legible) (rest : List Char) :
    ∃ c cs, s.text.toList ++ rest = c :: cs ∧
      match s with
      | word _ => isDelimiter c = false
      | quoted _ => c = '"'
      | list _ => c = '(' := by
  cases s with
  | word text =>
    obtain ⟨nonempty, all⟩ := legible
    obtain ⟨c, cs, same⟩ := List.exists_cons_of_ne_nil nonempty
    refine ⟨c, cs ++ rest, ?_, all c (same ▸ List.mem_cons_self)⟩
    rw [Sexp.text, same]
    rfl
  | quoted contents =>
    refine ⟨'"', contents.toList ++ '"' :: rest, ?_, rfl⟩
    simp [text]
  | list items =>
    cases items with
    | nil => exact ⟨'(', _, text_list_nil rest, rfl⟩
    | cons s others => exact ⟨'(', _, text_list_cons s others rest, rfl⟩

theorem word_unique {one other : String} {rest rest' : List Char} (legible : (word one).Legible)
    (legible' : (word other).Legible) (ends : Ends rest) (ends' : Ends rest')
    (same : one.toList ++ rest = other.toList ++ rest') : one = other ∧ rest = rest' := by
  have inside : ∀ {text : String}, (word text).Legible → ∀ c ∈ text.toList, (!isDelimiter c) = true := by
    intro text fine c member
    rw [fine.2 c member]
    rfl
  obtain ⟨taken, left⟩ := Piece.takeWhile_front (inside legible) ends.delimiter
  obtain ⟨taken', left'⟩ := Piece.takeWhile_front (inside legible') ends'.delimiter
  rw [same, taken'] at taken
  rw [same, left'] at left
  exact ⟨String.toList_inj.mp taken.symm, left.symm⟩

theorem quoted_unique {one other : String} {rest rest' : List Char} (legible : (quoted one).Legible)
    (legible' : (quoted other).Legible)
    (same : (quoted one).text.toList ++ rest = (quoted other).text.toList ++ rest') :
    one = other ∧ rest = rest' := by
  have inside : ∀ {text : String}, (quoted text).Legible → ∀ c ∈ text.toList, (c != '"') = true := by
    intro text fine c member
    rw [bne_iff_ne]
    rintro rfl
    exact fine member
  have opened : ∀ (text : String) (rest : List Char),
      (quoted text).text.toList ++ rest = '"' :: (text.toList ++ '"' :: rest) := by
    intro text rest
    simp [Sexp.text]
  rw [opened, opened, List.cons_inj_right] at same
  have stop : ('"' != '"') = false := by decide
  obtain ⟨taken, left⟩ := Piece.takeWhile_run (p := (· != '"')) stop (inside legible) rest
  obtain ⟨taken', left'⟩ := Piece.takeWhile_run (p := (· != '"')) stop (inside legible') rest'
  rw [same, taken'] at taken
  rw [same, left'] at left
  exact ⟨String.toList_inj.mp taken.symm, (List.cons.inj left).2.symm⟩

theorem first_ne_closing {s : Sexp} (legible : s.Legible) {rest cs : List Char} :
    s.text.toList ++ rest ≠ ')' :: cs := by
  obtain ⟨c, cs', begins, sort⟩ := first_of_text legible rest
  intro same
  cases begins.symm.trans same
  cases s <;> cases sort

mutual

/-- Of two legible lists with the same text in front of what may follow them, neither ends before the
other: they are the same. -/
theorem unique_of_text (s s' : Sexp) (legible : s.Legible) (legible' : s'.Legible)
    {rest rest' : List Char} (ends : Ends rest) (ends' : Ends rest')
    (same : s.text.toList ++ rest = s'.text.toList ++ rest') : s = s' ∧ rest = rest' := by
  obtain ⟨c, cs, begins, sort⟩ := first_of_text legible rest
  obtain ⟨c', cs', begins', sort'⟩ := first_of_text legible' rest'
  have heads : c = c' := (List.cons.inj (begins.symm.trans (same.trans begins'))).1
  subst heads
  -- lists of different sorts differ in the first character already
  match s, s' with
  | .word one, .word other =>
    obtain ⟨texts, behind⟩ := word_unique legible legible' ends ends' same
    exact ⟨congrArg word texts, behind⟩
  | .quoted one, .quoted other =>
    obtain ⟨texts, behind⟩ := quoted_unique legible legible' same
    exact ⟨congrArg quoted texts, behind⟩
  | .list [], .list [] => exact ⟨rfl, (List.cons.inj (List.cons.inj same).2).2⟩
  | .list (first :: others), .list (first' :: others') =>
    rw [text_list_cons, text_list_cons, List.cons_inj_right] at same
    obtain ⟨rfl, behind⟩ := unique_of_text first first' legible.1 legible'.1 (ends_closing _ _)
      (ends_closing _ _) same
    obtain ⟨rfl, after⟩ := unique_of_closing others others' legible.2 legible'.2 behind
    exact ⟨rfl, after⟩
  | .list [], .list (first :: others) =>
    rw [text_list_nil, text_list_cons, List.cons_inj_right] at same
    exact absurd same.symm (first_ne_closing legible'.1)
  | .list (first :: others), .list [] =>
    rw [text_list_nil, text_list_cons, List.cons_inj_right] at same
    exact absurd same (first_ne_closing legible.1)
  | .word _, .quoted _ | .word _, .list _ =>
    cases sort'
    cases sort
  | .quoted _, .word _ | .list _, .word _ =>
    cases sort
    cases sort'
  | .quoted _, .list _ | .list _, .quoted _ =>
    cases sort
    cases sort'

theorem unique_of_closing (items items' : List Sexp) (legible : AllLegible items)
    (legible' : AllLegible items') {rest rest' : List Char}
    (same : closing items rest = closing items' rest') : items = items' ∧ rest = rest' := by
  match items, items' with
  | [], [] => exact ⟨rfl, (List.cons.inj same).2⟩
  | s :: others, s' :: others' =>
    rw [closing, closing, List.flatMap_cons, List.flatMap_cons, List.append_assoc,
      List.append_assoc, List.cons_append, List.cons_append, List.cons_inj_right] at same
    obtain ⟨rfl, behind⟩ := unique_of_text s s' legible.1 legible'.1 (ends_closing _ _)
      (ends_closing _ _) same
    obtain ⟨rfl, after⟩ := unique_of_closing others others' legible.2 legible'.2 behind
    exact ⟨rfl, after⟩
  | [], s :: others => cases same
  | s :: others, [] => cases same

end

theorem eq_of_text {s s' : Sexp} (legible : s.Legible) (legible' : s'.Legible)
    (same : s.text = s'.text) : s = s' := by
  have ends : Ends [] := fun _ absent => nomatch absent
  apply (unique_of_text s s' legible legible' ends ends _).1
  rw [same]

end Sexp

end LoxMachine
