import LoxMachine.Proofs.Grammar.Reads
import LoxMachine.Proofs.Grammar.Takes

namespace LoxMachine

namespace Reader

variable {α β : Type}

/-- The tokens, closed by the token for the end, are exactly what the reader builds `a` from. -/
def Spans (r : Reader α) (tokens : List Token) (a : α) : Prop :=
  ∃ closing stop, closing.isEnding = true ∧ r ⟨tokens ++ [closing], 0⟩ = .ok a stop ∧
    stop.rest = [closing]

theorem Spans.built {r : Reader α} {tokens : List Token} {a : α} (spans : r.Spans tokens a)
    {built : List Token → α → Prop} {seen : α → Token → Prop} (takes : Takes Any Any r built seen) :
    built tokens a := by
  obtain ⟨closing, stop, _, read, rest⟩ := spans
  obtain ⟨taken, split, before, _⟩ := takes _ _ _ (fun _ _ => True.intro) True.intro read
  rw [rest] at split
  rwa [List.append_cancel_right split]

def Ahead (r : Reader α) (tokens other : List Token) (good : α → Prop) : Prop :=
  ∀ i, ∃ a j, r ⟨tokens ++ other, i⟩ = .ok a ⟨other, j⟩ ∧ good a

theorem Reads.ahead {r : Reader α} {tokens other : List Token} {may : Token → Prop}
    {good : α → Prop} (reads : Reads r tokens may good) (next : may (headOf other)) :
    Ahead r tokens other good :=
  fun i => reads i other next

namespace Ahead

variable {r : Reader α} {f : α → Reader β} {tokens more other : List Token} {t : Token}
  {good : α → Prop} {fine : β → Prop}

theorem mono {weaker : α → Prop} (ahead : Ahead r tokens other good)
    (implies : ∀ a, good a → weaker a) : Ahead r tokens other weaker := by
  intro i
  obtain ⟨a, j, read, built⟩ := ahead i
  exact ⟨a, j, read, implies a built⟩

theorem pure {a : α} (built : good a) : Ahead (pure a) [] other good := fun i => ⟨a, i, rfl, built⟩

theorem node {build : NodeId → α} (built : ∀ i, good (build i)) :
    Ahead (Reader.node build) [] other good := fun i => ⟨build i, i + 1, rfl, built i⟩

theorem current_bind {f : Token → Reader β} (rest : Ahead (f t) (t :: tokens) other fine) :
    Ahead (current >>= f) (t :: tokens) other fine :=
  rest

theorem node_bind {build : NodeId → α} (rest : ∀ i, Ahead (f (build i)) tokens other fine) :
    Ahead (Reader.node build >>= f) tokens other fine := fun i => rest i (i + 1)

theorem bind (one : Ahead r tokens (more ++ other) good)
    (two : ∀ a, good a → Ahead (f a) more other fine) :
    Ahead (r >>= f) (tokens ++ more) other fine := by
  intro i
  obtain ⟨a, j, before, built⟩ := one i
  obtain ⟨b, k, after, finished⟩ := two a built j
  refine ⟨b, k, bind_ok.mpr ⟨a, _, ?_, after⟩, finished⟩
  rw [List.append_assoc]
  exact before

theorem andThen (one : Ahead r tokens other good) (two : ∀ a, good a → Ahead (f a) [] other fine) :
    Ahead (r >>= f) tokens other fine := by
  have both : Ahead (r >>= f) (tokens ++ []) other fine := bind one two
  rw [List.append_nil] at both
  exact both

theorem map {g : α → β} (one : Ahead r tokens other fun a => fine (g a)) :
    Ahead (g <$> r) tokens other fine :=
  one.andThen fun _ built => pure built

theorem first {r : Reader Token} {f : Token → Reader β} (one : Reads r [t] (fun _ => True) (· = t))
    (rest : Ahead (f t) tokens other fine) : Ahead (r >>= f) (t :: tokens) other fine := by
  have then_rest : ∀ u, u = t → Ahead (f u) tokens other fine := by
    intro u same
    rw [same]
    exact rest
  exact bind (one.ahead True.intro) then_rest

theorem expect {s : Symbol} {place : Place} {f : Token → Reader β} (kind : t.kind = .symbol s)
    (rest : Ahead (f t) tokens other fine) :
    Ahead (Reader.expect s place >>= f) (t :: tokens) other fine :=
  first (Reads.expect kind) rest

theorem takeIf_yes {test : Token → Bool} {f : Bool → Reader β} (kindly : KindTest test)
    (tested : test t = true) (rest : Ahead (f true) tokens other fine) :
    Ahead (takeIf test >>= f) (t :: tokens) other fine := by
  intro i
  have seen : test (Cursor.current ⟨t :: tokens ++ other, i⟩) = true := tested
  rw [Carries.takeIf_bind_eq, if_pos seen]
  exact first (f := fun _ => f true) (Reads.take (kindly.goes t tested)) rest i

theorem takeIf_no {test : Token → Bool} {f : Bool → Reader β}
    (refused : test (headOf (tokens ++ other)) = false) (rest : Ahead (f false) tokens other fine) :
    Ahead (takeIf test >>= f) tokens other fine := by
  intro i
  have seen : test (Cursor.current ⟨tokens ++ other, i⟩) = false := refused
  rw [Carries.takeIf_bind_eq, if_neg (Bool.eq_false_iff.mp seen)]
  exact rest i

end Ahead

section Items

variable {item : Reader α} {test : Token → Bool} {tokens more other : List Token}
  {good : α → Prop} {fine : List α → Prop}

def Items (test : Token → Bool) (item : Reader α) (tokens other : List Token)
    (good : List α → Prop) : Prop :=
  ∀ n before i, tokens.length ≤ n → ∃ as j,
    repeatUpTo test (fun items => do return (← item) :: items) n before ⟨tokens ++ other, i⟩ =
      .ok (as.reverse ++ before) ⟨other, j⟩ ∧ good as

theorem Items.nil (stops : test (headOf other) = false) : Items test item [] other (· = []) := by
  intro n before i _
  have stopped : test (Cursor.current ⟨other, i⟩) = false := stops
  exact ⟨[], i, Carries.repeatUpTo_stop stopped, rfl⟩

theorem Items.cons (one : Ahead item tokens (more ++ other) good)
    (goes : ∃ t rest, tokens = t :: rest ∧ test t = true) (later : Items test item more other fine) :
    Items test item (tokens ++ more) other fun as => ∃ a rest, as = a :: rest ∧ good a ∧ fine rest := by
  intro n before i enough
  obtain ⟨t, rest, rfl, tested⟩ := goes
  obtain ⟨a, j, read, built⟩ := one i
  rw [List.length_append, List.length_cons] at enough
  obtain ⟨n, rfl⟩ : ∃ less, n = less + 1 := ⟨n - 1, by omega⟩
  obtain ⟨as, k, loop, others⟩ := later n (a :: before) j (by omega)
  refine ⟨a :: as, k, ?_, a, as, rfl, built, others⟩
  have seen : test (Cursor.current ⟨t :: rest ++ more ++ other, i⟩) = true := tested
  have stepped : (do return (← item) :: before : Reader (List α)) ⟨t :: rest ++ more ++ other, i⟩ =
      .ok (a :: before) ⟨more ++ other, j⟩ := by
    rw [List.append_assoc]
    exact bind_ok.mpr ⟨a, _, read, rfl⟩
  rw [Carries.repeatUpTo_go seen]
  refine bind_ok.mpr ⟨_, _, stepped, ?_⟩
  rw [loop, List.reverse_cons, List.append_assoc]
  rfl

theorem Items.many (items : Items test item tokens other fine) :
    Ahead (many test item) tokens other fine := by
  intro i
  have enough : tokens.length ≤ (tokens ++ other).length := by
    rw [List.length_append]
    exact Nat.le_add_right _ _
  obtain ⟨as, j, loop, good⟩ := items (tokens ++ other).length [] i enough
  refine ⟨as, j, bind_ok.mpr ⟨_, _, loop, ?_⟩, good⟩
  rw [List.append_nil, List.reverse_reverse]
  rfl

end Items

end Reader

end LoxMachine
