import LoxMachine.Proofs.Grammar.Carries

namespace LoxMachine

namespace Reader

variable {α β κ ν : Type}

def Stops (takes : Prop) (closing : Token) (read : EStateM.Result SyntaxError Cursor α) : Prop :=
  (¬ takes ∧ ∃ a i, read = .ok a ⟨[closing], i⟩) ∨
    ∃ expected c, read = .error (.unexpected expected closing) c

theorem Stops.weaken {takes : Prop} {closing : Token}
    {read : EStateM.Result SyntaxError Cursor α} (stops : Stops takes closing read) :
    Stops False closing read := by
  rcases stops with ⟨-, stays⟩ | wants
  · exact .inl ⟨id, stays⟩
  · exact .inr wants

/-- What `r` finds in front of a cut, `r'` finds in the whole text, as far as a `view` of it goes. -/
structure Persists (room : Nat) (first : Token → Prop) (takes : Prop) (view : α → κ)
    (r r' : Reader α) : Prop where
  atEnd : ∀ closing i, closing.isEnding = true → 0 < room → first closing →
    Stops takes closing (r ⟨[closing], i⟩)
  within : ∀ t front closing next later i j, closing.isEnding = true →
    (t :: front).length < room → first t →
    Stops False closing (r ⟨t :: front ++ [closing], i⟩) ∨
    (∃ a b u rest i' j', r ⟨t :: front ++ [closing], i⟩ = .ok a ⟨u :: rest ++ [closing], i'⟩ ∧
      r' ⟨t :: front ++ next :: later, j⟩ = .ok b ⟨u :: rest ++ next :: later, j'⟩ ∧
      view a = view b ∧ rest.length ≤ front.length ∧ (takes → rest.length < front.length)) ∨
    (∃ e c e' c', r ⟨t :: front ++ [closing], i⟩ = .error e c ∧
      r' ⟨t :: front ++ next :: later, j⟩ = .error e' c')

def Fails (r : Reader α) : Prop := ∀ c, ∃ e c', r c = .error e c'

theorem bind_of_ok {r : Reader α} {f : α → Reader β} {c c' : Cursor} {a : α}
    (read : r c = .ok a c') : (r >>= f) c = f a c' := by
  change EStateM.bind r f c = _
  unfold EStateM.bind
  rw [read]

theorem bind_of_error {r : Reader α} {f : α → Reader β} {c c' : Cursor} {e : SyntaxError}
    (read : r c = .error e c') : (r >>= f) c = .error e c' := by
  change EStateM.bind r f c = _
  unfold EStateM.bind
  rw [read]

theorem Fails.bind {r : Reader α} {f : α → Reader β} (fails : ∀ a, (f a).Fails) :
    (r >>= f).Fails := by
  intro c
  cases read : r c with
  | ok a mid =>
    rw [bind_of_ok read]
    exact fails a mid
  | error e mid =>
    rw [bind_of_error read]
    exact ⟨e, mid, rfl⟩

namespace Persists

variable {room room₁ : Nat} {first : Token → Prop} {takes takes₁ takes₂ : Prop} {view : α → κ}
  {view' : β → ν} {r r' : Reader α} {f f' : α → Reader β}

theorem strengthen {narrow : Token → Prop} (persists : Persists room first takes view r r')
    (narrower : ∀ t, narrow t → first t) : Persists room narrow takes view r r' where
  atEnd _ _ ended some here := persists.atEnd _ _ ended some (narrower _ here)
  within _ _ _ _ _ _ _ ended short here := persists.within _ _ _ _ _ _ _ ended short (narrower _ here)

theorem lower (persists : Persists room first takes view r r') (less : room₁ ≤ room) :
    Persists room₁ first takes view r r' where
  atEnd _ _ ended some here := persists.atEnd _ _ ended (Nat.lt_of_lt_of_le some less) here
  within _ _ _ _ _ _ _ ended short here :=
    persists.within _ _ _ _ _ _ _ ended (Nat.lt_of_lt_of_le short less) here

theorem perhaps (persists : Persists room first True view r r') :
    Persists room first takes view r r' where
  atEnd closing i ended some here := by
    rcases persists.atEnd closing i ended some here with ⟨idle, -⟩ | wants
    · exact absurd True.intro idle
    · exact .inr wants
  within t front closing next later i j ended short here := by
    rcases persists.within t front closing next later i j ended short here with
      stops | ⟨a, b, u, rest, i', j', cut, whole, seen, less, lt⟩ | fails
    · exact .inl stops
    · exact .inr (.inl ⟨a, b, u, rest, i', j', cut, whole, seen, less, fun _ => lt True.intro⟩)
    · exact .inr (.inr fails)

/-- One reader after another. If the first takes a token, the second needs less room. -/
theorem compose (one : Persists room first takes₁ view r r')
    (two : ∀ a b, view a = view b →
      Persists room₁ (fun _ => True) takes₂ view' (f a) (f' b))
    (enough : room ≤ room₁ ∨ takes₁ ∧ room ≤ room₁ + 1) (less : takes → takes₁ ∨ takes₂) :
    Persists room first takes view' (r >>= f) (r' >>= f') where
  atEnd closing i ended some here := by
    rcases one.atEnd closing i ended some here with ⟨idle, a, i', cut⟩ | ⟨expected, c, cut⟩
    · have some' : 0 < room₁ := by
        rcases enough with same | ⟨known, -⟩
        · omega
        · exact absurd known idle
      rw [bind_of_ok cut]
      rcases (two a a rfl).atEnd closing i' ended some' True.intro with ⟨idle', stays⟩ | wants
      · exact .inl ⟨fun known => (less known).elim idle idle', stays⟩
      · exact .inr wants
    · exact .inr ⟨expected, c, bind_of_error cut⟩
  within t front closing next later i j ended short here := by
    rw [List.length_cons] at short
    rcases one.within t front closing next later i j ended short here with
      (⟨-, a, i', cut⟩ | ⟨expected, c, cut⟩) | ⟨a, b, u, rest, i', j', cut, whole, seen, le, lt⟩ |
        ⟨e, c, e', c', cut, whole⟩
    · rw [bind_of_ok cut]
      exact .inl (Stops.weaken ((two a a rfl).atEnd closing i' ended (by omega) True.intro))
    · exact .inl (.inr ⟨expected, c, bind_of_error cut⟩)
    · have short' : (u :: rest).length < room₁ := by
        rw [List.length_cons]
        rcases enough with same | ⟨known, same⟩
        · omega
        · have := lt known
          omega
      rw [bind_of_ok cut, bind_of_ok whole]
      rcases (two a b seen).within u rest closing next later i' j' ended short' True.intro with
        stops | ⟨a', b', v, rest', i'', j'', cut', whole', seen', le', lt'⟩ | fails
      · exact .inl stops
      · refine .inr (.inl ⟨a', b', v, rest', i'', j'', cut', whole', seen', by omega, fun known => ?_⟩)
        rcases less known with left | right
        · have := lt left
          omega
        · have := lt' right
          omega
      · exact .inr (.inr fails)
    · exact .inr (.inr ⟨e, c, e', c', bind_of_error cut, bind_of_error whole⟩)

theorem bind (one : Persists room first takes view r r')
    (two : ∀ a b, view a = view b → Persists room (fun _ => True) False view' (f a) (f' b)) :
    Persists room first takes view' (r >>= f) (r' >>= f') :=
  one.compose two (.inl (Nat.le_refl _)) .inl

theorem before (one : Persists room first False view r r')
    (two : ∀ a b, view a = view b → Persists room (fun _ => True) True view' (f a) (f' b)) :
    Persists room first True view' (r >>= f) (r' >>= f') :=
  one.compose two (.inl (Nat.le_refl _)) .inr

theorem after (one : Persists (room + 1) first True view r r')
    (two : ∀ a b, view a = view b → Persists room (fun _ => True) False view' (f a) (f' b)) :
    Persists (room + 1) first True view' (r >>= f) (r' >>= f') :=
  one.compose two (.inr ⟨True.intro, Nat.le_refl _⟩) fun _ => .inl True.intro

theorem still {seen : κ} (reads : ∀ c, ∃ a i, r c = .ok a ⟨c.rest, i⟩ ∧ view a = seen)
    (reads' : ∀ c, ∃ a i, r' c = .ok a ⟨c.rest, i⟩ ∧ view a = seen) :
    Persists room first False view r r' where
  atEnd closing i _ _ _ := by
    obtain ⟨a, i', cut, -⟩ := reads ⟨[closing], i⟩
    exact .inl ⟨id, a, i', cut⟩
  within t front closing next later i j _ _ _ := by
    obtain ⟨a, i', cut, view_a⟩ := reads ⟨t :: front ++ [closing], i⟩
    obtain ⟨b, j', whole, view_b⟩ := reads' ⟨t :: front ++ next :: later, j⟩
    exact .inr (.inl ⟨a, b, t, front, i', j', cut, whole, view_a.trans view_b.symm, Nat.le_refl _,
      False.elim⟩)

theorem pure {a b : α} (seen : view a = view b) :
    Persists room first False view (pure a) (pure b) :=
  still (fun c => ⟨a, c.nextId, rfl, seen⟩) fun c => ⟨b, c.nextId, rfl, rfl⟩

theorem node {build build' : NodeId → α} (seen : ∀ i j, view (build i) = view (build' j)) :
    Persists room first False view (Reader.node build) (Reader.node build') :=
  still (fun c => ⟨_, _, rfl, seen c.nextId 0⟩)
    fun c => ⟨_, _, rfl, (seen 0 c.nextId).symm.trans (seen 0 0)⟩

theorem map {g g' : α → β} (persists : Persists room first takes view r r')
    (seen : ∀ a b, view a = view b → view' (g a) = view' (g' b)) :
    Persists room first takes view' (g <$> r) (g' <$> r') :=
  persists.bind fun a b same => pure (seen a b same)

theorem unexpected {t : Token} {expected : Expectation} :
    Persists room (fun u => u = t) takes view (Reader.unexpected expected t)
      (Reader.unexpected expected t) where
  atEnd _ i _ _ here := by
    subst here
    exact .inr ⟨expected, _, rfl⟩
  within _ _ _ _ _ _ _ _ _ _ := .inr (.inr ⟨_, _, _, _, rfl, rfl⟩)

theorem doomed (fails : r.Fails) (fails' : r'.Fails) :
    Persists room (fun t => t.isEnding = false) takes view r r' where
  atEnd _ _ ended _ here := absurd (ended.symm.trans here) (by decide)
  within t front closing next later i j _ _ _ := by
    obtain ⟨e, c, cut⟩ := fails ⟨t :: front ++ [closing], i⟩
    obtain ⟨e', c', whole⟩ := fails' ⟨t :: front ++ next :: later, j⟩
    exact .inr (.inr ⟨e, c, e', c', cut, whole⟩)

theorem take : Persists room (fun t => t.isEnding = false) True id Reader.take Reader.take where
  atEnd _ _ ended _ here := absurd (ended.symm.trans here) (by decide)
  within t front closing next later i j _ _ here := by
    have cut : Reader.take ⟨t :: front ++ [closing], i⟩ = .ok t ⟨front ++ [closing], i⟩ :=
      Carries.take_cons here
    have whole : Reader.take ⟨t :: front ++ next :: later, j⟩ = .ok t ⟨front ++ next :: later, j⟩ :=
      Carries.take_cons here
    cases front with
    | nil => exact .inl (.inl ⟨id, t, i, cut⟩)
    | cons u rest =>
      exact .inr (.inl ⟨t, t, u, rest, i, j, cut, whole, rfl, Nat.le_succ _, fun _ => Nat.lt_succ_self _⟩)

theorem current_bind {f f' : Token → Reader α}
    (each : ∀ t, first t → Persists room (fun u => u = t) takes view (f t) (f' t)) :
    Persists room first takes view (Reader.current >>= f) (Reader.current >>= f') where
  atEnd closing _ ended some here := (each closing here).atEnd _ _ ended some rfl
  within t _ _ _ _ _ _ ended short here := (each t here).within _ _ _ _ _ _ _ ended short rfl

theorem wanted {test : Token → Prop} [DecidablePred test] {expected : Expectation}
    (goes : ∀ t, test t → t.isEnding = false) :
    Persists room first True id
      (do let t ← Reader.current; if test t then Reader.take else Reader.unexpected expected t)
      (do let t ← Reader.current; if test t then Reader.take else Reader.unexpected expected t) := by
  refine current_bind fun t _ => ?_
  split
  · rename_i tested
    exact take.strengthen fun u same => same ▸ goes t tested
  · exact unexpected

theorem expect (s : Symbol) (place : Place) :
    Persists room first True id (Reader.expect s place) (Reader.expect s place) :=
  wanted fun t tested => (KindTest.symbol s).goes t tested

theorem expectName (role : NameRole) :
    Persists room first True id (Reader.expectName role) (Reader.expectName role) :=
  wanted fun t kind => by
    unfold Token.isEnding
    rw [kind]
    rfl

theorem takeIf_bind {test : Token → Bool} (kindly : KindTest test) {f f' : Bool → Reader α}
    (yes : Persists room (fun _ => True) False view (f true) (f' true))
    (no : Persists room first takes view (f false) (f' false)) :
    Persists room first takes view (Reader.takeIf test >>= f) (Reader.takeIf test >>= f') := by
  have taking : Persists room (fun t => t.isEnding = false) True view
      (Reader.take >>= fun _ => f true) (Reader.take >>= fun _ => f' true) := take.bind fun _ _ _ => yes
  have split : ∀ g : Bool → Reader α, (Reader.takeIf test >>= g) =
      (Reader.current >>= fun t => if test t then Reader.take >>= fun _ => g true else g false) := by
    intro g
    funext c
    rw [Carries.takeIf_bind_eq, Carries.current_eq]
    split <;> rfl
  rw [split f, split f']
  refine current_bind fun t here => ?_
  split
  · rename_i tested
    have here : ∀ u, u = t → u.isEnding = false := fun u same => same ▸ kindly.goes t tested
    exact (taking.strengthen here).perhaps
  · exact no.strengthen fun u same => same ▸ here

theorem none_room : Persists 0 first takes view r r' where
  atEnd _ _ _ none := absurd none (Nat.lt_irrefl 0)
  within _ _ _ _ _ _ _ _ none := absurd none (Nat.not_lt_zero _)

theorem limited {read read' : Nat → Reader α} (size : Nat → Nat) (enough : ∀ n, n ≤ size n)
    (each : ∀ {room₁ n m}, room₁ ≤ room → room₁ ≤ n → room₁ ≤ m →
      Persists room₁ first takes view (read n) (read' m)) :
    Persists room first takes view (fun c => read (size c.rest.length) c)
      (fun c => read' (size c.rest.length) c) where
  atEnd closing i ended some here :=
    (each some (enough 1) (enough 1)).atEnd closing i ended Nat.zero_lt_one here
  within t front closing next later i j ended short here := by
    have cut : (t :: front).length + 1 ≤ size (t :: front ++ [closing]).length := by
      refine Nat.le_trans ?_ (enough _)
      rw [List.length_append]
      exact Nat.le_refl _
    have whole : (t :: front).length + 1 ≤ size (t :: front ++ next :: later).length := by
      refine Nat.le_trans ?_ (enough _)
      rw [List.length_append, List.length_cons (a := next)]
      omega
    exact (each short cut whole).within t front closing next later i j ended (Nat.lt_succ_self _) here

section Repetitions

variable {test : Token → Bool} {step step' : α → Reader α}

theorem repeatUpTo (each : ∀ a b, view a = view b →
      Persists room (fun t => test t = true) True view (step a) (step' b))
    {n m : Nat} (less : room₁ ≤ room) (enough : room₁ ≤ n) (enough' : room₁ ≤ m) {a b : α}
    (seen : view a = view b) :
    Persists room₁ first False view (Reader.repeatUpTo test step n a)
      (Reader.repeatUpTo test step' m b) := by
  induction n generalizing room₁ first m a b with
  | zero =>
    cases Nat.le_zero.mp enough
    exact none_room
  | succ n ih =>
    cases room₁ with
    | zero => exact none_room
    | succ room₁ =>
      obtain ⟨m, rfl⟩ : ∃ less, m = less + 1 := ⟨m - 1, by omega⟩
      refine current_bind fun t _ => ?_
      split
      · rename_i tested
        have here : ∀ u, u = t → test u = true := fun u same => same ▸ tested
        have one := ((each a b seen).lower less).strengthen here
        exact (one.after fun a b seen => ih (by omega) (by omega) (by omega) seen).perhaps
      · exact pure seen

theorem repeatWhile (each : ∀ a b, view a = view b →
      Persists room (fun t => test t = true) True view (step a) (step' b)) {a b : α}
    (seen : view a = view b) :
    Persists room first False view (Reader.repeatWhile test step a)
      (Reader.repeatWhile test step' b) :=
  limited id Nat.le_refl fun less enough enough' => repeatUpTo each less enough enough' seen

theorem many {item item' : Reader α}
    (each : Persists room (fun t => test t = true) True view item item') :
    Persists room first False (List.map view) (Reader.many test item) (Reader.many test item') := by
  have loop : Persists room first False (List.map view)
      (Reader.repeatWhile test (fun items => do return (← item) :: items) [])
      (Reader.repeatWhile test (fun items => do return (← item') :: items) []) := by
    refine repeatWhile (fun items items' seen => ?_) rfl
    exact each.map fun a b same => by rw [List.map_cons, List.map_cons, same, seen]
  refine loop.bind fun items items' seen => pure ?_
  rw [List.map_reverse, List.map_reverse, seen]

theorem separated {item item' : Reader α}
    (each : ∀ {first : Token → Prop}, Persists room first True view item item') :
    Persists room first True (List.map view) (Reader.separated item) (Reader.separated item') := by
  have comma : ∀ t : Token, t.isSymbol .comma = true → t.isEnding = false :=
    (KindTest.symbol .comma).goes
  refine each.bind fun a b seen => ?_
  have others : Persists room (fun _ => True) False (List.map view)
      (Reader.many (·.isSymbol .comma) (do let _ ← Reader.take; item))
      (Reader.many (·.isSymbol .comma) (do let _ ← Reader.take; item')) :=
    many ((take.bind fun _ _ _ => each.perhaps).strengthen comma)
  exact others.map fun as bs same => by rw [List.map_cons, List.map_cons, seen, same]

theorem separatedBefore (closing : Symbol) {item item' : Reader α}
    (each : ∀ {first : Token → Prop}, Persists room first True view item item') :
    Persists room first False (List.map view) (Reader.separatedBefore closing item)
      (Reader.separatedBefore closing item') := by
  refine current_bind fun t _ => ?_
  split
  · exact pure rfl
  · exact (separated each).perhaps

theorem optionalBefore (closing : Symbol) {item item' : Reader α}
    (each : ∀ {first : Token → Prop}, Persists room first True view item item') :
    Persists room first False (Option.map view) (Reader.optionalBefore closing item)
      (Reader.optionalBefore closing item') := by
  refine current_bind fun t _ => ?_
  split
  · exact pure rfl
  · have some_item : Persists room (fun u => u = t) True (Option.map view)
        (do return some (← item)) (do return some (← item')) :=
      each.map fun a b same => congrArg some same
    exact some_item.perhaps

end Repetitions

end Persists

end Reader

end LoxMachine
