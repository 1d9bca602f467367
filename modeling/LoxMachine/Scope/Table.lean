
namespace LoxMachine

/-- Named things, in the order in which the names came in. -/
abbrev Table (α : Type) := List (String × α)

namespace Table

variable {α : Type}

def get? (t : Table α) (name : String) : Option α := List.lookup name t

def contains (t : Table α) (name : String) : Bool := (t.get? name).isSome

def put (t : Table α) (name : String) (a : α) : Table α :=
  match t with
  | [] => [(name, a)]
  | (other, b) :: rest =>
    if other == name then (name, a) :: rest else (other, b) :: put rest name a

def names (t : Table α) : List String := t.map (·.1)

def sorted (t : Table α) : Table α := t.mergeSort fun a b => decide (a.1 ≤ b.1)

theorem get?_cons (other name : String) (b : α) (rest : Table α) :
    get? ((other, b) :: rest) name = if name == other then some b else get? rest name := by
  simp only [get?, List.lookup_cons]
  cases name == other <;> rfl

theorem get?_put (t : Table α) (name query : String) (a : α) :
    (t.put name a).get? query = if query = name then some a else t.get? query := by
  induction t with
  | nil => simp only [put, get?_cons, beq_iff_eq]
  | cons entry rest ih =>
    obtain ⟨other, b⟩ := entry
    by_cases same : other = name
    · subst same
      simp only [put, BEq.rfl, ↓reduceIte, get?_cons, beq_iff_eq]
      split <;> rfl
    · have differ : (other == name) = false := beq_eq_false_iff_ne.mpr same
      simp only [put, differ, Bool.false_eq_true, ↓reduceIte, get?_cons, beq_iff_eq, ih]
      by_cases here : query = other
      · subst here
        simp only [↓reduceIte, same]
      · simp only [here, ↓reduceIte]

end Table

end LoxMachine
