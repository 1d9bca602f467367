import LoxMachine.Text.Search

namespace LoxMachine.Text

theorem occursIn_iff {part text : List Char} : occursIn part text = true ↔ part <:+: text := by
  induction text with
  | nil => simp [occursIn]
  | cons c rest ih =>
    simp only [occursIn, Bool.or_eq_true, List.isPrefixOf_iff_prefix, ih]
    exact List.infix_cons_iff.symm

theorem infix_append_cons {part : List Char} {c : Char} (free : c ∉ part) (before after : List Char) :
    part <:+: before ++ c :: after ↔ part <:+: before ∨ part <:+: after := by
  have front : ∀ {head : List Char}, (∀ d ∈ head, d ∈ part) → head <+: c :: after → head = [] := by
    intro head within starts
    cases head with
    | nil => rfl
    | cons d rest =>
      obtain ⟨rfl, _⟩ := List.cons_prefix_cons.mp starts
      exact absurd (within d List.mem_cons_self) free
  rw [List.infix_append_iff, List.infix_cons_iff]
  constructor
  · rintro (left | (starts | right) | ⟨tail, head, rfl, ends, starts⟩)
    · exact .inl left
    · exact .inl (front (fun _ => id) starts ▸ List.nil_infix)
    · exact .inr right
    · obtain rfl := front (fun d member => List.mem_append_right tail member) starts
      exact .inl (by simpa using ends.isInfix)
  · exact Or.imp_right fun right => .inl (.inr right)

theorem not_infix_of_missing {part text : List Char} {c : Char} (has : c ∈ part)
    (missing : c ∉ text) : ¬ part <:+: text :=
  fun stands => missing (stands.subset has)

end LoxMachine.Text
