import Mathlib.Data.List.Induction

namespace LoxMachine

variable {α β : Type} {W : β → α → Prop} {past : List β} {a : α}

def LastWritten (W : β → α → Prop) (past : List β) (a : α) : Prop :=
  ∃ before event after, past = before ++ event :: after ∧ W event a ∧
    ∀ later ∈ after, ∀ b, ¬ W later b

def NeverWritten (W : β → α → Prop) (past : List β) : Prop := ∀ event ∈ past, ∀ b, ¬ W event b

theorem lastWritten_concat {event : β} : LastWritten W (past ++ [event]) a ↔
    W event a ∨ (∀ b, ¬ W event b) ∧ LastWritten W past a := by
  constructor
  · rintro ⟨before, written, after, split, writes, none⟩
    rcases List.eq_nil_or_concat after with rfl | ⟨others, last, rfl⟩
    · cases (List.append_inj' split rfl).2
      exact .inl writes
    · rw [List.concat_eq_append, ← List.cons_append, ← List.append_assoc] at split
      obtain ⟨earlier, same⟩ := List.append_inj' split rfl
      cases same
      rw [List.concat_eq_append] at none
      refine .inr ⟨none event (List.mem_append_right _ (List.mem_singleton_self _)), ?_⟩
      exact ⟨before, written, others, earlier, writes,
        fun later member => none later (List.mem_append_left _ member)⟩
  · rintro (writes | ⟨still, before, written, after, rfl, writes, none⟩)
    · exact ⟨past, event, [], rfl, writes, List.forall_mem_nil _⟩
    · refine ⟨before, written, after ++ [event], List.append_assoc _ _ _, writes, ?_⟩
      intro later member
      rcases List.mem_append.mp member with old | new
      · exact none later old
      · cases List.mem_singleton.mp new
        exact still

theorem lastWritten_or_never (W : β → α → Prop) (past : List β) :
    (∃ a, LastWritten W past a) ∨ NeverWritten W past := by
  induction past using List.reverseRecOn with
  | nil => exact .inr (List.forall_mem_nil _)
  | append_singleton past event ih =>
    by_cases writes : ∃ a, W event a
    · obtain ⟨a, writes⟩ := writes
      exact .inl ⟨a, lastWritten_concat.mpr (.inl writes)⟩
    · have still : ∀ b, ¬ W event b := fun b here => writes ⟨b, here⟩
      rcases ih with ⟨a, last⟩ | never
      · exact .inl ⟨a, lastWritten_concat.mpr (.inr ⟨still, last⟩)⟩
      · refine .inr fun other member => ?_
        rcases List.mem_append.mp member with old | new
        · exact never other old
        · cases List.mem_singleton.mp new
          exact still

theorem NeverWritten.not_lastWritten (never : NeverWritten W past) : ¬ LastWritten W past a := by
  rintro ⟨before, event, after, rfl, writes, _⟩
  exact never event (List.mem_append_right _ List.mem_cons_self) a writes

end LoxMachine
