import LoxMachine.Proofs.Grammar.Carries
import LoxMachine.Proofs.Program.Words

namespace LoxMachine.Reader

variable {α β : Type}

/-- On tokens that are all `allowed`, the current one being a `first`, the reader takes some tokens
and builds from them what is `built` from such tokens, and `seen` holds of the next token. -/
def Takes (allowed first : Token → Prop) (r : Reader α) (built : List Token → α → Prop)
    (seen : α → Token → Prop) : Prop :=
  ∀ c a c', (∀ t ∈ c.rest, allowed t) → first c.current → r c = .ok a c' →
    ∃ taken, c.rest = taken ++ c'.rest ∧ built taken a ∧ seen a c'.current

def Unseen {α : Type} (_ : α) (_ : Token) : Prop := True

def Any (_ : Token) : Prop := True

namespace Takes

variable {allowed first : Token → Prop} {r : Reader α} {f : α → Reader β}
  {built built' : List Token → α → Prop} {made : List Token → β → Prop} {seen : α → Token → Prop}
  {noted : β → Token → Prop}

theorem mono (takes : Takes allowed first r built seen)
    (weaker : ∀ taken a, built taken a → built' taken a) : Takes allowed first r built' seen := by
  intro c a c' fine here read
  obtain ⟨taken, split, before, next⟩ := takes c a c' fine here read
  exact ⟨taken, split, weaker taken a before, next⟩

theorem bind (one : Takes allowed first r built seen)
    (two : ∀ taken a, built taken a →
      Takes allowed (seen a) (f a) (fun more => made (taken ++ more)) noted) :
    Takes allowed first (r >>= f) made noted := by
  intro c b c' fine here read
  obtain ⟨a, mid, before, after⟩ := bind_ok.mp read
  obtain ⟨taken, split, left, next⟩ := one c a mid fine here before
  have still : ∀ t ∈ mid.rest, allowed t := by
    intro t member
    apply fine
    rw [split]
    exact List.mem_append_right _ member
  obtain ⟨more, split', right, last⟩ := two taken a left mid b c' still next after
  exact ⟨taken ++ more, by rw [split, split', List.append_assoc], right, last⟩

theorem pure {a : α} (nothing : built [] a) (next : ∀ t, first t → seen a t) :
    Takes allowed first (pure a) built seen := by
  intro c a' c' _ here read
  obtain ⟨rfl, rfl⟩ := pure_ok.mp read
  exact ⟨[], rfl, nothing, next _ here⟩

theorem map {g : α → β} (takes : Takes allowed first r (fun taken a => made taken (g a)) seen)
    (next : ∀ a t, seen a t → noted (g a) t) : Takes allowed first (g <$> r) made noted := by
  refine takes.bind fun taken a before => pure ?_ (next a)
  rw [List.append_nil]
  exact before

theorem node {build : NodeId → α} (nothing : ∀ i, built [] (build i))
    (next : ∀ i t, first t → seen (build i) t) : Takes allowed first (node build) built seen := by
  intro c a c' _ here read
  cases read
  exact ⟨[], rfl, nothing _, next _ _ here⟩

theorem unexpected {expected : Expectation} {found : Token} :
    Takes allowed first (unexpected expected found) built seen := by
  intro c a c' _ _ read
  cases read

theorem absent (open_here : ∀ t, first t → t.isEnding = false)
    (other : ∀ t, first t → ¬ allowed t) : Takes allowed first r built seen := by
  intro c a c' fine here _
  obtain ⟨rest, split⟩ := Carries.cons_of_current (open_here _ here)
  refine absurd (fine c.current ?_) (other _ here)
  rw [split]
  exact List.mem_cons_self

def Single (known : Token → Prop) (taken : List Token) (t : Token) : Prop := known t ∧ taken = [t]

theorem before {known : Token → Prop} {r : Reader Token} {f : Token → Reader β}
    (one : Takes allowed first r (Single known) Unseen)
    (rest : ∀ t, known t → Takes allowed Any (f t) (fun more => made (t :: more)) noted) :
    Takes allowed first (r >>= f) made noted := by
  refine one.bind fun taken t single => ?_
  obtain ⟨here, rfl⟩ := single
  exact rest t here

theorem take (open_here : ∀ t, first t → t.isEnding = false) :
    Takes allowed first take (Single first) Unseen := by
  intro c a c' _ here read
  have open_now := open_here _ here
  obtain ⟨others, split⟩ := Carries.cons_of_current open_now
  obtain ⟨tokens, i⟩ := c
  change tokens = _ at split
  rw [split, Carries.take_cons open_now] at read
  cases read
  exact ⟨[_], split, ⟨here, rfl⟩, True.intro⟩

theorem expect {s : Symbol} {place : Place} :
    Takes allowed first (expect s place) (Single (·.kind = .symbol s)) Unseen := by
  intro c a c' fine _ read
  change (if c.current.isSymbol s then Reader.take else Reader.unexpected _ _) c = _ at read
  cases found : c.current.isSymbol s with
  | false =>
    rw [found] at read
    cases read
  | true =>
    rw [found] at read
    have taking := @take allowed (·.isSymbol s = true) (KindTest.symbol s).goes
    obtain ⟨taken, split, ⟨symbol, same⟩, next⟩ := taking c a c' fine found read
    exact ⟨taken, split, ⟨eq_of_beq symbol, same⟩, next⟩

theorem expectName {role : NameRole} :
    Takes allowed first (expectName role) (Single (·.kind = .identifier)) Unseen := by
  intro c a c' fine _ read
  change (if c.current.kind = .identifier then Reader.take else Reader.unexpected _ _) c = _ at read
  by_cases found : c.current.kind = .identifier
  · rw [if_pos found] at read
    refine @take allowed (·.kind = .identifier) (fun t name => ?_) c a c' fine found read
    unfold Token.isEnding
    rw [name]
    rfl
  · rw [if_neg found] at read
    cases read

theorem current_bind {f : Token → Reader β}
    (rest : ∀ t, first t → Takes allowed (· = t) (f t) made noted) :
    Takes allowed first (current >>= f) made noted :=
  fun c b c' fine here read => rest c.current here c b c' fine rfl read

theorem takeIf_bind {test : Token → Bool} (kindly : KindTest test) {f : Bool → Reader β}
    (yes : ∀ t, first t → test t = true →
      Takes allowed Any (f true) (fun more => made (t :: more)) noted)
    (no : Takes allowed (fun t => first t ∧ test t = false) (f false) made noted) :
    Takes allowed first (takeIf test >>= f) made noted := by
  intro c b c' fine here read
  rw [Carries.takeIf_bind_eq] at read
  cases tested : test c.current with
  | true =>
    rw [if_pos tested] at read
    have taking := @take allowed (fun t => first t ∧ test t = true) fun t both => kindly.goes t both.2
    exact taking.before (fun t both => yes t both.1 both.2) c b c' fine ⟨here, tested⟩ read
  | false =>
    rw [if_neg (Bool.eq_false_iff.mp tested)] at read
    exact no c b c' fine ⟨here, tested⟩ read

section Repetitions

variable {test : Token → Bool} {step : α → Reader α}

/-- What holds of the tokens before the loop and of what is built from them, and is kept by every
step, holds after the loop. -/
theorem repeatWhile (each : ∀ taken a, built taken a →
      Takes allowed (test · = true) (step a) (fun more => built (taken ++ more)) Unseen)
    {taken : List Token} {a : α} (before : built taken a) :
    Takes allowed first (repeatWhile test step a) (fun more => built (taken ++ more)) Unseen := by
  intro c b c' fine here read
  clear here
  change repeatUpTo test step c.rest.length a c = _ at read
  generalize c.rest.length = n at read
  have stopped : ∀ {taken : List Token} {a : α}, built taken a → built (taken ++ []) a := by
    intro taken a before
    rwa [List.append_nil]
  induction n generalizing taken a c with
  | zero =>
    cases read
    exact ⟨[], rfl, stopped before, True.intro⟩
  | succ n ih =>
    cases tested : test c.current with
    | false =>
      rw [Carries.repeatUpTo_stop tested] at read
      cases read
      exact ⟨[], rfl, stopped before, True.intro⟩
    | true =>
      rw [Carries.repeatUpTo_go tested] at read
      obtain ⟨mid, between, one, rest⟩ := bind_ok.mp read
      obtain ⟨more, split, after, _⟩ := each taken a before c mid between fine tested one
      have still : ∀ t ∈ between.rest, allowed t := by
        intro t member
        apply fine
        rw [split]
        exact List.mem_append_right _ member
      obtain ⟨others, split', last, _⟩ := ih after between still rest
      refine ⟨more ++ others, by rw [split, split', List.append_assoc], ?_, True.intro⟩
      rw [List.append_assoc] at last
      exact last

end Repetitions

section Words

variable {item : Reader α} {words : α → List Word} {shaped : α → Prop}

def Phrase (words : α → List Word) (shaped : α → Prop) (taken : List Token) (a : α) : Prop :=
  Spells Eq (words a) taken ∧ shaped a

def Phrases (words : α → List Word) (shaped : α → Prop) : List Token → List α → Prop :=
  Phrase (List.flatMap words) fun items => ∀ a ∈ items, shaped a

theorem Phrases.nil : Phrases words shaped [] [] := by
  refine ⟨.nil, fun a none => ?_⟩
  cases none

theorem Phrases.snoc {taken more : List Token} {items : List α} {a : α}
    (before : Phrases words shaped taken items) (now : Phrase words shaped more a) :
    Phrases words shaped (taken ++ more) (items ++ [a]) := by
  constructor
  · rw [List.flatMap_append, List.flatMap_singleton]
    exact before.1.append now.1
  · exact List.forall_mem_append.mpr ⟨before.2, List.forall_mem_singleton.mpr now.2⟩

def Gathered (words : α → List Word) (shaped : α → Prop) (taken : List Token) (items : List α) : Prop :=
  Phrases words shaped taken items.reverse

theorem many {test : Token → Bool}
    (each : Takes allowed (test · = true) item (Phrase words shaped) seen) :
    Takes allowed first (many test item) (Phrases words shaped) Unseen := by
  have one : ∀ taken items, Gathered words shaped taken items →
      Takes allowed (test · = true) (do return (← item) :: items)
        (fun more => Gathered words shaped (taken ++ more)) Unseen := by
    intro taken items before
    refine each.bind fun more a now => pure ?_ fun _ _ => True.intro
    rw [List.append_nil, Gathered, List.reverse_cons]
    exact before.snoc now
  have loop := @repeatWhile _ allowed first _ test _ one [] [] .nil
  refine loop.bind fun taken items before => pure ?_ fun _ _ => True.intro
  rw [List.append_nil]
  exact before

theorem separated (each : ∀ {first : Token → Prop}, Takes allowed first item (Phrase words shaped) seen) :
    Takes allowed first (separated item)
      (Phrase (fun items => listed (items.map words)) fun items => ∀ a ∈ items, shaped a) Unseen := by
  refine each.bind fun taken a now => ?_
  have another : Takes allowed (·.isSymbol .comma = true) (do let _ ← Reader.take; item)
      (Phrase (fun a => .plain (.symbol .comma) :: words a) shaped) seen := by
    refine (take (KindTest.symbol .comma).goes).before fun t comma => ?_
    exact each.mono fun more b here => ⟨.cons (eq_of_beq comma) here.1, here.2⟩
  refine (many another).bind fun more items later => pure ?_ fun _ _ => True.intro
  rw [List.append_nil]
  refine ⟨?_, List.forall_mem_cons.mpr ⟨now.2, later.2⟩⟩
  change Spells Eq (words a ++ (items.map words).flatMap (.plain (.symbol .comma) :: ·)) _
  rw [List.flatMap_map]
  exact now.1.append later.1

theorem separatedBefore (closing : Symbol)
    (each : ∀ {first : Token → Prop}, Takes allowed first item (Phrase words shaped) seen) :
    Takes allowed first (separatedBefore closing item)
      (Phrase (fun items => listed (items.map words)) fun items => ∀ a ∈ items, shaped a) Unseen := by
  refine current_bind fun t _ => ?_
  split
  · refine pure ⟨.nil, ?_⟩ fun _ _ => True.intro
    intro a none
    cases none
  · exact separated each

end Words

end Takes

end LoxMachine.Reader
