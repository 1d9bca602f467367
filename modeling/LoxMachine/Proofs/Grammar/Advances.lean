import LoxMachine.Proofs.Grammar.Stuck

namespace LoxMachine

open Reader

namespace Cursor

def Closed (c : Cursor) : Prop := ∃ t ∈ c.rest, t.isEnding = true

def Reaches (c c' : Cursor) : Prop := ∃ taken, Open taken ∧ c.rest = taken ++ c'.rest

def before (c : Cursor) (beyond : List Token) : Cursor := { c with rest := c.rest ++ beyond }

/-- What comes of a reader that begins at this place: it has not come past the end, has taken a
token if it is said to, and its error is no lack of depth. -/
def Yields {α : Type} (takes : Prop) (c : Cursor) : EStateM.Result SyntaxError Cursor α → Prop
  | .ok _ c' => c.Reaches c' ∧ (takes → c'.rest.length < c.rest.length)
  | .error e c' => c.Reaches c' ∧ e ≠ .nesting

variable {c c' c'' : Cursor} {beyond : List Token}

theorem Closed.pos (closed : c.Closed) : 0 < c.rest.length := by
  obtain ⟨t, member, _⟩ := closed
  exact List.length_pos_of_mem member

theorem before_nil (c : Cursor) : c.before [] = c := by
  unfold before
  rw [List.append_nil]

theorem Closed.current_before (closed : c.Closed) : (c.before beyond).current = c.current := by
  obtain ⟨tokens, i⟩ := c
  cases tokens with
  | nil => exact absurd closed.pos (Nat.lt_irrefl 0)
  | cons t rest => rfl

theorem Reaches.refl (c : Cursor) : c.Reaches c := ⟨[], nofun, rfl⟩

theorem Reaches.trans (one : c.Reaches c') (two : c'.Reaches c'') : c.Reaches c'' := by
  obtain ⟨taken, open_one, split⟩ := one
  obtain ⟨more, open_two, split'⟩ := two
  exact ⟨taken ++ more, open_one.append open_two, by rw [split, split', List.append_assoc]⟩

theorem Reaches.closed (reaches : c.Reaches c') (closed : c.Closed) : c'.Closed := by
  obtain ⟨taken, open_taken, split⟩ := reaches
  obtain ⟨t, member, ends⟩ := closed
  rw [split, List.mem_append] at member
  refine ⟨t, member.resolve_left fun early => ?_, ends⟩
  exact absurd ((open_taken t early).symm.trans ends) (by decide)

theorem Reaches.length_le (reaches : c.Reaches c') : c'.rest.length ≤ c.rest.length := by
  obtain ⟨taken, _, split⟩ := reaches
  rw [split, List.length_append]
  exact Nat.le_add_left _ _

theorem Yields.behind {α : Type} {takes takes₁ takes₂ : Prop}
    {result : EStateM.Result SyntaxError Cursor α} (reaches : c.Reaches c')
    (shorter : takes₁ → c'.rest.length < c.rest.length) (yields : c'.Yields takes₂ result)
    (less : takes → takes₁ ∨ takes₂) : c.Yields takes result := by
  cases result with
  | error e last => exact ⟨reaches.trans yields.1, yields.2⟩
  | ok a last =>
    refine ⟨reaches.trans yields.1, fun known => ?_⟩
    rcases less known with left | right
    · exact Nat.lt_of_le_of_lt yields.1.length_le (shorter left)
    · exact Nat.lt_of_lt_of_le (yields.2 right) reaches.length_le

end Cursor

namespace Reader

open Cursor

variable {α β : Type}

def resultBefore (beyond : List Token) :
    EStateM.Result SyntaxError Cursor α → EStateM.Result SyntaxError Cursor α
  | .ok a c => .ok a (c.before beyond)
  | .error e c => .error e (c.before beyond)

theorem resultBefore_nil (result : EStateM.Result SyntaxError Cursor α) :
    resultBefore [] result = result := by
  cases result with
  | ok a c => exact congrArg (EStateM.Result.ok a) c.before_nil
  | error e c => exact congrArg (EStateM.Result.error e) c.before_nil

/-- Where not more than so many tokens are left, one of them is for the end and the current one is a
`first`, the reader advances towards the end, and the other reader does the same with more tokens
beyond. -/
def Advances (beyond : List Token) (room : Nat) (first : Token → Prop) (takes : Prop)
    (r r' : Reader α) : Prop :=
  ∀ c : Cursor, c.Closed → c.rest.length ≤ room → first c.current →
    c.Yields takes (r c) ∧ r' (c.before beyond) = resultBefore beyond (r c)

namespace Advances

variable {beyond : List Token} {room room₁ : Nat} {first : Token → Prop}
  {takes takes₁ takes₂ : Prop} {r r' : Reader α} {f f' : α → Reader β}

theorem strengthen {narrow : Token → Prop} (advances : Advances beyond room first takes r r')
    (narrower : ∀ t, narrow t → first t) : Advances beyond room narrow takes r r' :=
  fun c closed short here => advances c closed short (narrower _ here)

theorem lower (advances : Advances beyond room first takes r r') (less : room₁ ≤ room) :
    Advances beyond room₁ first takes r r' :=
  fun c closed short here => advances c closed (Nat.le_trans short less) here

theorem compose (one : Advances beyond room first takes₁ r r')
    (two : ∀ a, Advances beyond room₁ (fun _ => True) takes₂ (f a) (f' a))
    (enough : room ≤ room₁ ∨ takes₁ ∧ room ≤ room₁ + 1) (less : takes → takes₁ ∨ takes₂) :
    Advances beyond room first takes (r >>= f) (r' >>= f') := by
  intro c closed short here
  obtain ⟨yields, same⟩ := one c closed short here
  cases read : r c with
  | error e last =>
    rw [read] at yields same
    rw [bind_of_error read, bind_of_error same]
    exact ⟨yields, rfl⟩
  | ok a mid =>
    rw [read] at yields same
    obtain ⟨reaches, shorter⟩ := yields
    have short' : mid.rest.length ≤ room₁ := by
      rcases enough with wide | ⟨known, wide⟩
      · exact Nat.le_trans reaches.length_le (Nat.le_trans short wide)
      · have := shorter known
        omega
    obtain ⟨yields', same'⟩ := two a mid (reaches.closed closed) short' True.intro
    rw [bind_of_ok read, bind_of_ok same]
    exact ⟨yields'.behind reaches shorter less, same'⟩

theorem bind (one : Advances beyond room first takes r r')
    (two : ∀ a, Advances beyond room (fun _ => True) False (f a) (f' a)) :
    Advances beyond room first takes (r >>= f) (r' >>= f') :=
  one.compose two (.inl (Nat.le_refl _)) .inl

theorem andThen (one : Advances beyond room first False r r')
    (two : ∀ a, Advances beyond room (fun _ => True) takes (f a) (f' a)) :
    Advances beyond room first takes (r >>= f) (r' >>= f') :=
  one.compose two (.inl (Nat.le_refl _)) .inr

theorem after (one : Advances beyond (room + 1) first True r r')
    (two : ∀ a, Advances beyond room (fun _ => True) False (f a) (f' a)) :
    Advances beyond (room + 1) first takes (r >>= f) (r' >>= f') :=
  one.compose two (.inr ⟨True.intro, Nat.le_refl _⟩) fun _ => .inl True.intro

theorem pure (a : α) : Advances beyond room first False (pure a) (pure a) :=
  fun c _ _ _ => ⟨⟨.refl c, False.elim⟩, rfl⟩

theorem node (build : NodeId → α) :
    Advances beyond room first False (Reader.node build) (Reader.node build) :=
  fun c _ _ _ => ⟨⟨.refl c, False.elim⟩, rfl⟩

theorem map {g : α → β} (advances : Advances beyond room first takes r r') :
    Advances beyond room first takes (g <$> r) (g <$> r') :=
  advances.bind fun a => pure (g a)

theorem unexpected {expected : Expectation} {found : Token} :
    Advances (α := α) beyond room first takes (Reader.unexpected expected found)
      (Reader.unexpected expected found) :=
  fun c _ _ _ => ⟨⟨.refl c, nofun⟩, rfl⟩

theorem take :
    Advances beyond room (fun t => t.isEnding = false) takes Reader.take Reader.take := by
  intro c closed _ open_here
  obtain ⟨rest, split⟩ := Carries.cons_of_current open_here
  obtain ⟨tokens, i⟩ := c
  change tokens = _ at split
  generalize Cursor.current ⟨tokens, i⟩ = t at split open_here
  subst split
  have taken : Reader.take ⟨t :: rest, i⟩ = .ok t ⟨rest, i⟩ := Carries.take_cons open_here
  have taken' : Reader.take ⟨t :: rest ++ beyond, i⟩ = .ok t ⟨rest ++ beyond, i⟩ :=
    Carries.take_cons open_here
  rw [taken]
  exact ⟨⟨⟨[t], .single open_here, rfl⟩, fun _ => Nat.lt_succ_self _⟩, taken'⟩

theorem take_of {t : Token} (open_here : t.isEnding = false) :
    Advances beyond room (fun u => u = t) takes Reader.take Reader.take :=
  take.strengthen fun _ same => same ▸ open_here

theorem current_bind {f f' : Token → Reader α}
    (each : ∀ t, first t → Advances beyond room (fun u => u = t) takes (f t) (f' t)) :
    Advances beyond room first takes (Reader.current >>= f) (Reader.current >>= f') := by
  intro c closed short here
  rw [Carries.current_eq, Carries.current_eq, closed.current_before]
  exact each c.current here c closed short rfl

theorem wanted {test : Token → Prop} [DecidablePred test] {expected : Expectation}
    (goes : ∀ t, test t → t.isEnding = false) {r : Reader Token}
    (same : r = Reader.current >>= fun t =>
      if test t then Reader.take else Reader.unexpected expected t) :
    Advances beyond room first takes r r := by
  subst same
  refine current_bind fun t _ => ?_
  split
  · rename_i tested
    exact take_of (goes t tested)
  · exact unexpected

theorem expect (s : Symbol) (place : Place) :
    Advances beyond room first takes (Reader.expect s place) (Reader.expect s place) :=
  wanted (fun t tested => (KindTest.symbol s).goes t tested) rfl

theorem expectName (role : NameRole) :
    Advances beyond room first takes (Reader.expectName role) (Reader.expectName role) := by
  have goes : ∀ t : Token, t.kind = .identifier → t.isEnding = false := by
    intro t kind
    unfold Token.isEnding
    rw [kind]
    rfl
  exact wanted goes rfl

theorem takeIf_bind {test : Token → Bool} (kindly : KindTest test) {f f' : Bool → Reader α}
    (yes : Advances beyond room (fun _ => True) False (f true) (f' true))
    (no : Advances beyond room first takes (f false) (f' false)) :
    Advances beyond room first takes (Reader.takeIf test >>= f) (Reader.takeIf test >>= f') := by
  intro c closed short here
  rw [Carries.takeIf_bind_eq, Carries.takeIf_bind_eq, closed.current_before]
  cases tested : test c.current with
  | false => exact no c closed short here
  | true =>
    have taking : Advances beyond room (fun t => t.isEnding = false) takes
        (Reader.take >>= fun _ => f true) (Reader.take >>= fun _ => f' true) :=
      take.bind fun _ => yes
    exact taking c closed short (kindly.goes _ tested)

theorem none_room : Advances beyond 0 first takes r r' :=
  fun _ closed short _ => absurd closed.pos (Nat.not_lt.mpr short)

theorem limited {read read' : Nat → Reader α} (size size' : Nat → Nat)
    (enough : ∀ n, n ≤ room → n ≤ size n) (enough' : ∀ n, n ≤ size' n)
    (each : ∀ {room₁ n m}, room₁ ≤ n → room₁ ≤ m →
      Advances beyond room₁ first takes (read n) (read' m)) :
    Advances beyond room first takes (fun c => read (size c.rest.length) c)
      (fun c => read' (size' c.rest.length) c) := by
  intro c closed short here
  refine each (enough _ short) ?_ c closed (Nat.le_refl c.rest.length) here
  refine Nat.le_trans ?_ (enough' _)
  rw [Cursor.before, List.length_append]
  exact Nat.le_add_right _ _

section Repetitions

variable {test : Token → Bool} {step step' : α → Reader α} {item item' : Reader α}

theorem repeatUpTo
    (each : ∀ a, Advances beyond room (fun t => test t = true) True (step a) (step' a))
    {n m : Nat} (less : room₁ ≤ room) (enough : room₁ ≤ n) (enough' : room₁ ≤ m) (a : α) :
    Advances beyond room₁ first False (Reader.repeatUpTo test step n a)
      (Reader.repeatUpTo test step' m a) := by
  induction n generalizing room₁ first m a with
  | zero =>
    cases Nat.le_zero.mp enough
    exact none_room
  | succ n ih =>
    cases room₁ with
    | zero => exact none_room
    | succ room₁ =>
      obtain ⟨m, rfl⟩ : ∃ less, m = less + 1 := ⟨m - 1, by omega⟩
      refine current_bind fun t _ => ?_
      split
      · rename_i tested
        have here : ∀ u, u = t → test u = true := fun u same => same ▸ tested
        have one := ((each a).lower less).strengthen here
        exact one.after fun a => ih (by omega) (by omega) (by omega) a
      · exact pure a

theorem repeatWhile
    (each : ∀ a, Advances beyond room (fun t => test t = true) True (step a) (step' a)) (a : α) :
    Advances beyond room first False (Reader.repeatWhile test step a)
      (Reader.repeatWhile test step' a) := by
  intro c closed short here
  have longer : c.rest.length ≤ (c.before beyond).rest.length := by
    rw [Cursor.before, List.length_append]
    exact Nat.le_add_right _ _
  exact repeatUpTo each short (Nat.le_refl _) longer a c closed (Nat.le_refl _) here

theorem many (each : Advances beyond room (fun t => test t = true) True item item') :
    Advances beyond room first False (Reader.many test item) (Reader.many test item') :=
  (repeatWhile (fun _ => each.map) []).bind fun items => pure items.reverse

variable (each : ∀ {first : Token → Prop} {takes : Prop},
  Advances beyond room first takes item item')

include each

theorem separated :
    Advances beyond room first takes (Reader.separated item) (Reader.separated item') := by
  have comma : ∀ t : Token, t.isSymbol .comma = true → t.isEnding = false :=
    (KindTest.symbol .comma).goes
  refine each.bind fun a => ?_
  exact (many ((take.bind fun _ => each).strengthen comma)).bind fun others => pure (a :: others)

theorem separatedBefore (closing : Symbol) :
    Advances beyond room first False (Reader.separatedBefore closing item)
      (Reader.separatedBefore closing item') := by
  refine current_bind fun t _ => ?_
  split
  · exact pure []
  · exact separated each

theorem optionalBefore (closing : Symbol) :
    Advances beyond room first False (Reader.optionalBefore closing item)
      (Reader.optionalBefore closing item') := by
  refine current_bind fun t _ => ?_
  split
  · exact pure none
  · exact each.map

end Repetitions

theorem congr {s s' : Reader α} (advances : Advances [] room first takes r r')
    (same : ∀ c : Cursor, c.Closed → s c = r c) (same' : ∀ c : Cursor, c.Closed → s' c = r' c) :
    Advances [] room first takes s s' := by
  intro c closed short here
  obtain ⟨yields, both⟩ := advances c closed short here
  rw [before_nil] at both ⊢
  rw [same c closed, same' c closed]
  exact ⟨yields, both⟩

theorem agree (advances : Advances [] room first takes r r') {c : Cursor} (closed : c.Closed)
    (short : c.rest.length ≤ room) (here : first c.current) : r' c = r c := by
  have same := (advances c closed short here).2
  rwa [before_nil, resultBefore_nil] at same

end Advances

/-- What a repetition comes to that goes on as long as the current token passes the test. Every step
takes a token, so there is an end to it. -/
inductive Ends (test : Token → Bool) (step : α → Reader α) :
    α → Cursor → EStateM.Result SyntaxError Cursor α → Prop
  | stops {a : α} {c : Cursor} (stopped : test c.current = false) : Ends test step a c (.ok a c)
  | fails {a : α} {c c' : Cursor} {e : SyntaxError} (going : test c.current = true)
      (failed : step a c = .error e c') : Ends test step a c (.error e c')
  | goes {a b : α} {c c' : Cursor} {result : EStateM.Result SyntaxError Cursor α}
      (going : test c.current = true) (read : step a c = .ok b c')
      (shorter : c'.rest.length < c.rest.length) (rest : Ends test step b c' result) :
      Ends test step a c result

section Ends

variable {beyond : List Token} {room n : Nat} {test : Token → Bool} {step : α → Reader α} {a : α}
  {c : Cursor}

theorem Ends.stopped {b : α} {c' : Cursor} {result : EStateM.Result SyntaxError Cursor α}
    (ends : Ends test step a c result) (found : result = .ok b c') : test c'.current = false := by
  induction ends with
  | stops stopped =>
    cases found
    exact stopped
  | fails => cases found
  | goes _ _ _ _ ih => exact ih found

theorem ends_repeatUpTo
    (each : ∀ a, Advances beyond room (fun t => test t = true) True (step a) (step a))
    (closed : c.Closed) (short : c.rest.length ≤ room) (enough : c.rest.length ≤ n) :
    Ends test step a c (repeatUpTo test step n a c) := by
  induction n generalizing a c with
  | zero => exact absurd closed.pos (Nat.not_lt.mpr enough)
  | succ n ih =>
    cases tested : test c.current with
    | false =>
      rw [Carries.repeatUpTo_stop tested]
      exact .stops tested
    | true =>
      obtain ⟨yields, -⟩ := each a c closed short tested
      rw [Carries.repeatUpTo_go tested]
      cases read : step a c with
      | error e c' =>
        rw [bind_of_error read]
        exact .fails tested read
      | ok b mid =>
        rw [read] at yields
        obtain ⟨reaches, shorter⟩ := yields
        have less := shorter True.intro
        rw [bind_of_ok read]
        exact .goes tested read less (ih (reaches.closed closed) (by omega) (by omega))

theorem ends_repeatWhile
    (each : ∀ a, Advances beyond room (fun t => test t = true) True (step a) (step a))
    (closed : c.Closed) (short : c.rest.length ≤ room) :
    Ends test step a c (repeatWhile test step a c) :=
  ends_repeatUpTo each closed short (Nat.le_refl _)

end Ends

end Reader

end LoxMachine
