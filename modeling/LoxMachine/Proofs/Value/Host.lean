import LoxMachine.Machine.Store

namespace LoxMachine.Store

variable {s : Store}

/-- A call is counted and its arguments are kept, if the function is there. -/
theorem callHost_cases (f : Native) (arguments : List Value) :
    (s.callHost f arguments).1 = s ∨ ∃ host, host.size = s.host.size ∧
      (s.callHost f arguments).1 = { s with host }.keep arguments := by
  unfold Store.callHost
  split
  · let host := s.host.modify f.index fun e => { e with calls := e.calls + 1 }
    exact .inr ⟨host, Array.size_modify, rfl⟩
  · exact .inl rfl

theorem scopes_callHost (f : Native) (arguments : List Value) :
    (s.callHost f arguments).1.scopes = s.scopes := by
  unfold Store.callHost
  split <;> rfl

theorem fields_callHost (f : Native) (arguments : List Value) :
    (s.callHost f arguments).1.fields = s.fields := by
  unfold Store.callHost
  split <;> rfl

theorem nextIdentity_callHost (f : Native) (arguments : List Value) :
    (s.callHost f arguments).1.nextIdentity = s.nextIdentity := by
  unfold Store.callHost
  split <;> rfl

theorem kept_callHost (f : Native) (arguments : List Value) :
    (s.callHost f arguments).1.kept = arguments ++ s.kept ∨
      (s.callHost f arguments).1.kept = s.kept := by
  unfold Store.callHost
  split
  · exact .inl rfl
  · exact .inr rfl

theorem mem_kept_callHost {f : Native} {arguments : List Value} {a : Value}
    (member : a ∈ (s.callHost f arguments).1.kept) : a ∈ arguments ∨ a ∈ s.kept := by
  rcases kept_callHost (s := s) f arguments with more | same
  · exact List.mem_append.mp (more ▸ member)
  · exact .inr (same ▸ member)

theorem functions_callHost (f : Native) (arguments : List Value) :
    (s.callHost f arguments).1.host.map (·.function) = s.host.map (·.function) := by
  unfold Store.callHost
  split
  · apply Array.ext_getElem?
    intro i
    simp only [Array.getElem?_map, Array.getElem?_modify]
    split
    · rw [Option.map_map]
      rfl
    · rfl
  · rfl

theorem entry_of_functions {t : Store} (same : t.host.map (·.function) = s.host.map (·.function))
    {index : Nat} {later : HostEntry} (found : t.host[index]? = some later) :
    ∃ entry, s.host[index]? = some entry ∧ entry.function = later.function := by
  have here := congrArg (·[index]?) same
  simp only [Array.getElem?_map, found, Option.map_some] at here
  exact Option.map_eq_some_iff.mp here.symm

theorem size_of_functions {t : Store} (same : t.host.map (·.function) = s.host.map (·.function)) :
    t.host.size = s.host.size := by
  have size := congrArg Array.size same
  rwa [Array.size_map, Array.size_map] at size

section Recall

variable {P : Value → Prop} (nil : P .nil)
  (field : ∀ (o : Object) name a, P (.object o) → (s.fieldsOf o).get? name = some a → P a)
  (cls : ∀ o : Object, P (.object o) → P (.cls o.cls))
  (base : ∀ (k base : Class), P (.cls k) → k.superclass = some base → P (.cls base))

include nil field cls base

theorem follow_of {a : Value} (value : P a) (link : Link) : P (s.follow a link) := by
  unfold follow
  split
  · rename_i name o
    cases found : (s.fieldsOf o).get? name with
    | none => exact nil
    | some b => exact field o name b value found
  · exact cls _ value
  · rename_i k
    split
    · rename_i extended
      exact base k _ value extended
    · exact nil
  · exact nil

/-- What the host reads has a property that everything has that it was given, if the property goes
along with links. -/
theorem recollect_of (kept : ∀ a ∈ s.kept, P a) (choose : List Value → Nat) (links : List Link) :
    P (s.recollect choose links) := by
  have first : P (s.kept[choose s.kept]?.getD .nil) := by
    cases found : s.kept[choose s.kept]? with
    | none => exact nil
    | some a => exact kept a (List.mem_of_getElem? found)
  unfold recollect
  generalize s.kept[choose s.kept]?.getD .nil = a at first
  induction links generalizing a with
  | nil => exact first
  | cons link rest ih => exact ih _ (follow_of nil field cls base first link)

end Recall

end LoxMachine.Store
