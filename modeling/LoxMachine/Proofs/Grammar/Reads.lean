import LoxMachine.Proofs.Grammar.Carries
import LoxMachine.Proofs.Program.Bare

namespace LoxMachine

theorem Token.is_symbol {t : Token} {s : Symbol} (kind : t.kind = .symbol s) : t.isSymbol s = true :=
  beq_iff_eq.mpr kind

theorem Token.not_symbol {t : Token} {s s' : Symbol} (kind : t.kind = .symbol s) (differ : s ≠ s') :
    t.isSymbol s' = false := by
  unfold Token.isSymbol
  rw [kind]
  refine beq_false_of_ne fun same => ?_
  cases same
  exact differ rfl

namespace Reader

variable {α β : Type}

/-- In front of anything that begins with a token that `may` come next, the reader takes exactly
these tokens, and what it builds is `good`. -/
def Reads (r : Reader α) (tokens : List Token) (may : Token → Prop) (good : α → Prop) : Prop :=
  ∀ i other, may (headOf other) →
    ∃ a j, r ⟨tokens ++ other, i⟩ = .ok a ⟨other, j⟩ ∧ good a

namespace Reads

variable {r : Reader α} {f : α → Reader β} {tokens more : List Token} {may near : Token → Prop}
  {good : α → Prop} {fine : β → Prop}

theorem mono {good' : α → Prop} (reads : Reads r tokens may good) (weaker : ∀ a, good a → good' a) :
    Reads r tokens may good' := by
  intro i other next
  obtain ⟨a, j, read, built⟩ := reads i other next
  exact ⟨a, j, read, weaker a built⟩

theorem strengthen (reads : Reads r tokens near good) (narrower : ∀ t, may t → near t) :
    Reads r tokens may good :=
  fun i other next => reads i other (narrower _ next)

theorem pure {a : α} (built : good a) : Reads (pure a) [] may good :=
  fun i _ _ => ⟨a, i, rfl, built⟩

theorem node {build : NodeId → α} (built : ∀ i, good (build i)) : Reads (node build) [] may good :=
  fun i _ _ => ⟨build i, i + 1, rfl, built i⟩

/-- One reader after another. Behind the tokens of the first come those of the second, or what
follows them. -/
theorem bind (one : Reads r tokens near good) (two : ∀ a, good a → Reads (f a) more may fine)
    (behind : ∀ other, may (headOf other) → near (headOf (more ++ other))) :
    Reads (r >>= f) (tokens ++ more) may fine := by
  intro i other next
  obtain ⟨a, j, before, built⟩ := one i (more ++ other) (behind other next)
  obtain ⟨b, k, after, finished⟩ := two a built j other next
  refine ⟨b, k, bind_ok.mpr ⟨a, _, ?_, after⟩, finished⟩
  rw [List.append_assoc]
  exact before

theorem upTo {t : Token} {rest : List Token} (one : Reads r tokens near good) (next : near t)
    (two : ∀ a, good a → Reads (f a) (t :: rest) may fine) :
    Reads (r >>= f) (tokens ++ t :: rest) may fine :=
  one.bind two fun _ _ => next

theorem andThen (one : Reads r tokens near good) (narrower : ∀ t, may t → near t)
    (two : ∀ a, good a → Reads (f a) [] may fine) : Reads (r >>= f) tokens may fine := by
  have both := one.bind two fun other next => narrower _ next
  rw [List.append_nil] at both
  exact both

theorem map {g : α → β} (reads : Reads r tokens may fun a => fine (g a)) :
    Reads (g <$> r) tokens may fine :=
  reads.andThen (fun _ => id) fun _ built => pure built

section Tokens

variable {t : Token} {f : Token → Reader β}

theorem take (open_here : t.isEnding = false) : Reads take [t] may (· = t) :=
  fun i _ _ => ⟨t, i, Carries.take_cons open_here, rfl⟩

theorem first {r : Reader Token} (one : Reads r [t] (fun _ => True) (· = t))
    (rest : Reads (f t) tokens may fine) : Reads (r >>= f) (t :: tokens) may fine := by
  refine one.bind (fun u same => ?_) fun _ _ => True.intro
  rw [same]
  exact rest

theorem expect {s : Symbol} {place : Place} (kind : t.kind = .symbol s) :
    Reads (expect s place) [t] may (· = t) := by
  intro i other next
  have found := Token.is_symbol kind
  change ∃ a j, (if t.isSymbol s then Reader.take else Reader.unexpected _ t) _ = _ ∧ _
  rw [if_pos found]
  exact take ((KindTest.symbol s).goes t found) i other next

theorem expectName {role : NameRole} (kind : t.kind = .identifier) :
    Reads (expectName role) [t] may (· = t) := by
  intro i other next
  change ∃ a j, (if t.kind = .identifier then Reader.take else Reader.unexpected _ t) _ = _ ∧ _
  rw [if_pos kind]
  refine take ?_ i other next
  unfold Token.isEnding
  rw [kind]
  rfl

theorem current_bind (rest : Reads (f t) (t :: tokens) may fine) :
    Reads (current >>= f) (t :: tokens) may fine :=
  rest

theorem peek (rest : ∀ t, may t → Reads (f t) [] may fine) : Reads (current >>= f) [] may fine :=
  fun i other next => rest (headOf other) next i other next

theorem takeIf_yes {test : Token → Bool} {f : Bool → Reader β} (kindly : KindTest test)
    (tested : test t = true) (rest : Reads (f true) tokens may fine) :
    Reads (takeIf test >>= f) (t :: tokens) may fine := by
  intro i other next
  have seen : test (Cursor.current ⟨t :: tokens ++ other, i⟩) = true := tested
  rw [Carries.takeIf_bind_eq, if_pos seen]
  exact first (f := fun _ => f true) (take (kindly.goes t tested)) rest i other next

theorem takeIf_no {test : Token → Bool} {f : Bool → Reader β}
    (refused : ∀ other, may (headOf other) → test (headOf (tokens ++ other)) = false)
    (rest : Reads (f false) tokens may fine) : Reads (takeIf test >>= f) tokens may fine := by
  intro i other next
  have seen : test (Cursor.current ⟨tokens ++ other, i⟩) = false := refused other next
  rw [Carries.takeIf_bind_eq, if_neg (Bool.eq_false_iff.mp seen)]
  exact rest i other next

end Tokens

section Repetitions

variable {test : Token → Bool} {item : Reader α} {words : α → List Word} {bare : α → α}
  {same : Token → Token → Prop}

def Item (test : Token → Bool) (item : Reader α) (words : α → List Word) (bare : α → α)
    (same : Token → Token → Prop) (near : Token → Prop) (b : α) : Prop :=
  ∀ tokens, Spells same (words b) tokens →
    (∃ t rest, tokens = t :: rest ∧ test t = true ∧ near t) ∧
      Reads item tokens near fun a => bare a = bare b

theorem repeatUpTo_items (stops : ∀ t, may t → test t = false ∧ near t) {bs : List α}
    (each : ∀ b ∈ bs, Item test item words bare same near b) {tokens other : List Token}
    (spells : Spells same (bs.flatMap words) tokens) (next : may (headOf other)) {n : Nat}
    (enough : tokens.length ≤ n) (before : List α) (i : NodeId) :
    ∃ (as : List α) (j : NodeId), repeatUpTo test (fun items => do return (← item) :: items) n before
        ⟨tokens ++ other, i⟩ = .ok (as.reverse ++ before) ⟨other, j⟩ ∧
      as.map bare = bs.map bare := by
  induction bs generalizing tokens n before i with
  | nil =>
    cases spells
    have stopped : test (Cursor.current ⟨other, i⟩) = false := (stops _ next).1
    exact ⟨[], i, Carries.repeatUpTo_stop stopped, rfl⟩
  | cons b bs ih =>
    obtain ⟨here, later⟩ := List.forall_mem_cons.mp each
    rw [List.flatMap_cons] at spells
    obtain ⟨mine, rest, rfl, spells, spells'⟩ := spells.split
    obtain ⟨⟨t, others, begins, tested, _⟩, reads⟩ := here mine spells
    have behind : near (headOf (rest ++ other)) := by
      cases bs with
      | nil =>
        cases spells'
        exact (stops _ next).2
      | cons b' bs' =>
        rw [List.flatMap_cons] at spells'
        obtain ⟨first, last, rfl, spells', _⟩ := spells'.split
        obtain ⟨⟨u, others', begins', _, close⟩, _⟩ := later b' List.mem_cons_self first spells'
        rw [begins']
        exact close
    obtain ⟨a, j, read, alike⟩ := reads i (rest ++ other) behind
    rw [List.length_append, begins, List.length_cons] at enough
    obtain ⟨n, rfl⟩ : ∃ less, n = less + 1 := ⟨n - 1, by omega⟩
    obtain ⟨as, k, loop, alikes⟩ := ih later spells' (n := n) (by omega) (a :: before) j
    refine ⟨a :: as, k, ?_, ?_⟩
    · have goes : test (Cursor.current ⟨mine ++ rest ++ other, i⟩) = true := by
        rw [begins]
        exact tested
      rw [Carries.repeatUpTo_go goes]
      have stepped : (do return (← item) :: before : Reader (List α)) ⟨mine ++ rest ++ other, i⟩ =
          .ok (a :: before) ⟨rest ++ other, j⟩ := by
        rw [List.append_assoc]
        exact bind_ok.mpr ⟨a, _, read, rfl⟩
      refine bind_ok.mpr ⟨_, _, stepped, ?_⟩
      rw [loop, List.reverse_cons, List.append_assoc]
      rfl
    · rw [List.map_cons, List.map_cons, alike, alikes]

theorem many (stops : ∀ t, may t → test t = false ∧ near t) {bs : List α}
    (each : ∀ b ∈ bs, Item test item words bare same near b) {tokens : List Token}
    (spells : Spells same (bs.flatMap words) tokens) :
    Reads (many test item) tokens may fun as => as.map bare = bs.map bare := by
  intro i other next
  have enough : tokens.length ≤ (tokens ++ other).length := by
    rw [List.length_append]
    exact Nat.le_add_right _ _
  obtain ⟨as, j, loop, alike⟩ := repeatUpTo_items stops each spells next enough [] i
  refine ⟨as, j, bind_ok.mpr ⟨_, _, loop, ?_⟩, alike⟩
  rw [List.append_nil, List.reverse_reverse]
  rfl

def Between (closing : Symbol) (t : Token) : Prop :=
  t.kind = .symbol .comma ∨ t.kind = .symbol closing

theorem separated {closing : Symbol} (differ : closing ≠ .comma) {b : α} {bs : List α}
    (each : ∀ b' ∈ b :: bs, ∀ tokens, Spells same (words b') tokens →
      Reads item tokens (Between closing) fun a => bare a = bare b') {tokens : List Token}
    (spells : Spells same (listed ((b :: bs).map words)) tokens) :
    Reads (separated item) tokens (·.kind = .symbol closing)
      fun as => as.map bare = (b :: bs).map bare := by
  obtain ⟨here, later⟩ := List.forall_mem_cons.mp each
  obtain ⟨mine, rest, rfl, spells, spells'⟩ := spells.split
  rw [List.flatMap_map] at spells'
  have another : ∀ b' ∈ bs, Item (·.isSymbol .comma) (do let _ ← Reader.take; item)
      (fun b' => .plain (.symbol .comma) :: words b') bare same (Between closing) b' := by
    intro b' member tokens spells
    cases spells with
    | @cons _ t _ others kind spells =>
      have comma := Token.is_symbol kind
      refine ⟨⟨t, others, rfl, comma, .inl kind⟩, ?_⟩
      exact first (take ((KindTest.symbol .comma).goes t comma)) (later b' member others spells)
  have stops : ∀ t : Token, t.kind = .symbol closing →
      t.isSymbol .comma = false ∧ Between closing t :=
    fun t kind => ⟨Token.not_symbol kind differ, .inr kind⟩
  refine (here mine spells).bind (fun a alike => ?_) fun other next => ?_
  · refine (many stops another spells').andThen (fun _ => id) fun as alikes => pure ?_
    rw [List.map_cons, List.map_cons, alike, alikes]
  · cases bs with
    | nil =>
      cases spells'
      exact .inr next
    | cons b' bs' =>
      rw [List.flatMap_cons, List.cons_append] at spells'
      cases spells' with
      | cons comma _ => exact .inl comma

theorem separatedBefore {closing : Symbol} (differ : closing ≠ .comma) {bs : List α}
    (each : ∀ b ∈ bs, ∀ tokens, Spells same (words b) tokens →
      Reads item tokens (Between closing) fun a => bare a = bare b)
    (begins : ∀ b ∈ bs, ∀ tokens, Spells same (words b) tokens →
      ∃ t rest, tokens = t :: rest ∧ t.isSymbol closing = false)
    {tokens : List Token} (spells : Spells same (listed (bs.map words)) tokens) :
    Reads (separatedBefore closing item) tokens (·.kind = .symbol closing)
      fun as => as.map bare = bs.map bare := by
  intro i other next
  cases bs with
  | nil =>
    cases spells
    have closed : (Cursor.current ⟨other, i⟩).isSymbol closing = true := Token.is_symbol next
    refine ⟨[], i, ?_, rfl⟩
    change (if (Cursor.current ⟨other, i⟩).isSymbol closing then Pure.pure [] else _ : Reader _) _ = _
    rw [if_pos closed]
    rfl
  | cons b bs =>
    have reads := separated differ each spells i other next
    obtain ⟨mine, rest, rfl, mine_spells, _⟩ := spells.split
    obtain ⟨t, others, rfl, first_differs⟩ := begins b List.mem_cons_self mine mine_spells
    change ∃ as j, (if t.isSymbol closing then Pure.pure [] else Reader.separated item) _ = _ ∧ _
    rw [if_neg (Bool.eq_false_iff.mp first_differs)]
    exact reads

def Leads (r : Reader α) (loop : Nat → α → Reader α) (tokens : List Token) (may : Token → Prop)
    (good : α → Prop) : Prop :=
  ∀ i other, may (headOf other) →
    ∃ a j m, other.length ≤ m ∧ r ⟨tokens ++ other, i⟩ = loop m a ⟨other, j⟩ ∧ good a

variable {r : Reader α} {step : α → Reader α} {good' : α → Prop}

theorem Leads.start (reads : Reads r tokens near good) :
    Leads (r >>= Reader.repeatWhile test step) (repeatUpTo test step) tokens near good := by
  intro i other next
  obtain ⟨a, j, read, built⟩ := reads i other next
  refine ⟨a, j, other.length, Nat.le_refl _, ?_, built⟩
  change EStateM.bind _ _ _ = _
  unfold EStateM.bind
  rw [read]
  rfl

theorem Leads.turn {t : Token} (leads : Leads r (repeatUpTo test step) tokens near good)
    (tested : test t = true) (next : near t)
    (one : ∀ a, good a → Reads (step a) (t :: more) may good') :
    Leads r (repeatUpTo test step) (tokens ++ t :: more) may good' := by
  intro i other behind
  obtain ⟨a, j, m, enough, read, built⟩ := leads i (t :: more ++ other) next
  obtain ⟨b, k, stepped, built'⟩ := one a built j other behind
  rw [List.length_append, List.length_cons] at enough
  obtain ⟨m, rfl⟩ : ∃ less, m = less + 1 := ⟨m - 1, by omega⟩
  refine ⟨b, k, m, by omega, ?_, built'⟩
  have goes : test (Cursor.current ⟨t :: more ++ other, j⟩) = true := tested
  rw [List.append_assoc, read, Carries.repeatUpTo_go goes]
  change EStateM.bind _ _ _ = _
  unfold EStateM.bind
  rw [stepped]

theorem Leads.stop (leads : Leads r (repeatUpTo test step) tokens near good)
    (stops : ∀ t, may t → test t = false ∧ near t) : Reads r tokens may good := by
  intro i other next
  obtain ⟨stopped, close⟩ := stops _ next
  obtain ⟨a, j, m, _, read, built⟩ := leads i other close
  refine ⟨a, j, ?_, built⟩
  rw [read]
  exact Carries.repeatUpTo_stop stopped

end Repetitions

end Reads

end Reader

end LoxMachine
