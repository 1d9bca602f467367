import LoxMachine.Proofs.Grammar.Ensures

namespace LoxMachine

def headOf (rest : List Token) : Token := rest.head?.getD (.ending 0)

namespace Reader

variable {α β γ δ : Type}

/-- Where the first token passes the test, what `r` builds from its tokens `r'` builds from the
changed tokens, wherever the next token after them is one that `looks` alike. -/
def Carries (φ : Token → Token) (k : Nat) (first : Token → Prop) (looks : Token → Token → Prop)
    (takes : Prop) (change : α → β) (r : Reader α) (r' : Reader β) : Prop :=
  ∀ c a c', first c.current → r c = .ok a c' →
    ∃ taken, c.rest = taken ++ c'.rest ∧ (∀ t ∈ taken, t.isEnding = false) ∧ (takes → taken ≠ []) ∧
      ∀ other, c'.rest.length ≤ other.length → looks c'.current (headOf other) →
        r' ⟨taken.map φ ++ other, c.nextId + k⟩ = .ok (change a) ⟨other, c'.nextId + k⟩

def Tight (t u : Token) : Prop := t.kind = u.kind

def Loose (t u : Token) : Prop := t.isKeyword .elseWord = u.isKeyword .elseWord

theorem Tight.loose {t u : Token} (alike : Tight t u) : Loose t u := by
  unfold Loose Token.isKeyword
  rw [alike]

theorem pure_ok {a b : α} {c c' : Cursor} : (pure a : Reader α) c = .ok b c' ↔ a = b ∧ c = c' := by
  constructor
  · intro same
    cases same
    exact ⟨rfl, rfl⟩
  · rintro ⟨rfl, rfl⟩
    rfl

structure KindTest (test : Token → Bool) : Prop where
  kind : ∀ t u, Tight t u → test t = test u
  ending : ∀ t, t.isEnding = true → test t = false

theorem KindTest.goes {test : Token → Bool} (kindly : KindTest test) (t : Token)
    (tested : test t = true) : t.isEnding = false := by
  cases ended : t.isEnding with
  | false => rfl
  | true => exact absurd (tested.symm.trans (kindly.ending t ended)) (by decide)

theorem KindTest.ofKind (here : Kind → Bool) (ending : here .endOfInput = false) :
    KindTest fun t => here t.kind where
  kind _ _ alike := congrArg here alike
  ending _ ended := (congrArg here (eq_of_beq ended)).trans ending

theorem KindTest.symbol (s : Symbol) : KindTest (·.isSymbol s) :=
  .ofKind (· == .symbol s) rfl

theorem KindTest.word (k : Keyword) : KindTest (·.isKeyword k) :=
  .ofKind (· == .keyword k) rfl

namespace Carries

variable {φ : Token → Token} {k : Nat} {first : Token → Prop} {looks near : Token → Token → Prop}
  {takes takes₁ takes₂ : Prop} {change : α → β} {change' : γ → δ} {r : Reader α} {r' : Reader β}
  {f : α → Reader γ} {f' : β → Reader δ}

theorem mono (carries : Carries φ k first looks takes change r r')
    (narrower : ∀ t u, near t u → looks t u) : Carries φ k first near takes change r r' := by
  intro c a c' here read
  obtain ⟨taken, split, open_taken, some_taken, elsewhere⟩ := carries c a c' here read
  refine ⟨taken, split, open_taken, some_taken, fun other long alike => ?_⟩
  exact elsewhere other long (narrower _ _ alike)

theorem strengthen {narrow : Token → Prop} (carries : Carries φ k first looks takes change r r')
    (narrower : ∀ t, narrow t → first t) : Carries φ k narrow looks takes change r r' :=
  fun c a c' here => carries c a c' (narrower _ here)

theorem perhaps (carries : Carries φ k first looks True change r r') :
    Carries φ k first looks False change r r' := by
  intro c a c' here read
  obtain ⟨taken, split, open_taken, some_taken, elsewhere⟩ := carries c a c' here read
  exact ⟨taken, split, open_taken, False.elim, elsewhere⟩

theorem looks_behind {c c' : Cursor} {taken other : List Token} (split : c.rest = taken ++ c'.rest)
    (reflects : ∀ t, near t (φ t))
    (alike : taken = [] → near c'.current (headOf other)) :
    near c.current (headOf (taken.map φ ++ other)) := by
  have seen : c.current = headOf (taken ++ c'.rest) := congrArg headOf split
  cases taken with
  | nil =>
    rw [seen]
    exact alike rfl
  | cons t rest =>
    rw [seen]
    exact reflects t

/-- One reader after another. Behind the first stand the tokens of the second, or if there are none
those that follow. -/
theorem compose (one : Carries φ k first near takes₁ change r r')
    (two : ∀ a, Carries φ k (fun _ => True) looks takes₂ change' (f a) (f' (change a)))
    (reflects : ∀ t, near t (φ t)) (narrower : takes₂ ∨ ∀ t u, looks t u → near t u)
    (less : takes → takes₁ ∨ takes₂) :
    Carries φ k first looks takes change' (r >>= f) (r' >>= f') := by
  intro c b c' here read
  obtain ⟨a, mid, before, after⟩ := bind_ok.mp read
  obtain ⟨taken, split, open_taken, some_taken, elsewhere⟩ := one c a mid here before
  obtain ⟨taken', split', open_taken', some_taken', elsewhere'⟩ := two a mid b c' True.intro after
  refine ⟨taken ++ taken', ?_, ?_, ?_, ?_⟩
  · rw [split, split', List.append_assoc]
  · exact List.forall_mem_append.mpr ⟨open_taken, open_taken'⟩
  · intro known none
    obtain ⟨left, right⟩ := List.append_eq_nil_iff.mp none
    exact (less known).elim (some_taken · left) (some_taken' · right)
  · intro other long alike
    have behind : near mid.current (headOf (taken'.map φ ++ other)) := by
      refine looks_behind split' reflects fun none => ?_
      rcases narrower with known | weaker
      · exact absurd none (some_taken' known)
      · exact weaker _ _ alike
    have enough : mid.rest.length ≤ (taken'.map φ ++ other).length := by
      rw [split', List.length_append, List.length_append, List.length_map]
      exact Nat.add_le_add_left long _
    rw [List.map_append, List.append_assoc]
    exact bind_ok.mpr ⟨_, _, elsewhere _ enough behind, elsewhere' other long alike⟩

theorem bind (one : Carries φ k first near takes change r r')
    (two : ∀ a, Carries φ k (fun _ => True) looks False change' (f a) (f' (change a)))
    (reflects : ∀ t, near t (φ t)) (narrower : ∀ t u, looks t u → near t u) :
    Carries φ k first looks takes change' (r >>= f) (r' >>= f') :=
  one.compose two reflects (.inr narrower) .inl

theorem before (one : Carries φ k first near takes₁ change r r')
    (two : ∀ a, Carries φ k (fun _ => True) looks True change' (f a) (f' (change a)))
    (reflects : ∀ t, near t (φ t)) :
    Carries φ k first looks True change' (r >>= f) (r' >>= f') :=
  one.compose two reflects (.inl True.intro) .inr

theorem andThen (one : Carries φ k first (fun _ _ => True) takes change r r')
    (two : ∀ a, Carries φ k (fun _ => True) looks False change' (f a) (f' (change a))) :
    Carries φ k first looks takes change' (r >>= f) (r' >>= f') :=
  one.bind two (fun _ => True.intro) fun _ _ _ => True.intro

theorem pure {a : α} {b : β} (same : change a = b) :
    Carries φ k first looks False change (pure a) (pure b) := by
  intro c a' c' here read
  obtain ⟨rfl, rfl⟩ := pure_ok.mp read
  refine ⟨[], rfl, nofun, False.elim, fun other long alike => ?_⟩
  exact pure_ok.mpr ⟨same.symm, rfl⟩

theorem map {change : α → γ} {change' : β → δ} {g : α → β} {g' : γ → δ} {r' : Reader γ}
    (carries : Carries φ k first looks takes change r r')
    (same : ∀ a, change' (g a) = g' (change a)) (reflects : ∀ t, looks t (φ t)) :
    Carries φ k first looks takes change' (g <$> r) (g' <$> r') :=
  carries.bind (fun a => pure (same a)) reflects fun _ _ alike => alike

theorem node {build : NodeId → α} {build' : NodeId → β}
    (same : ∀ i, change (build i) = build' (i + k)) :
    Carries φ k first looks False change (Reader.node build) (Reader.node build') := by
  intro c a c' here read
  cases read
  refine ⟨[], rfl, nofun, False.elim, fun other long alike => ?_⟩
  have numbers : c.nextId + 1 + k = c.nextId + k + 1 := Nat.succ_add _ _
  change (.ok (build' (c.nextId + k)) ⟨other, c.nextId + k + 1⟩ : EStateM.Result _ Cursor β) =
    .ok (change (build c.nextId)) ⟨other, c.nextId + 1 + k⟩
  rw [same, numbers]

theorem node_bind {build : NodeId → α} {build' : NodeId → β} (change : α → β)
    (same : ∀ i, change (build i) = build' (i + k))
    (rest : ∀ a, Carries φ k (fun _ => True) looks False change' (f a) (f' (change a))) :
    Carries φ k first looks False change' (Reader.node build >>= f) (Reader.node build' >>= f') :=
  (node same).andThen rest

theorem unexpected {expected : Expectation} {found : Token} :
    Carries φ k first looks takes change (Reader.unexpected expected found) r' := by
  intro c a c' here read
  cases read

section Tokens

variable (kinds : ∀ t, (φ t).kind = t.kind)

theorem tight_change (kinds : ∀ t, (φ t).kind = t.kind) (t : Token) : Tight t (φ t) := (kinds t).symm

theorem take_cons {t : Token} {rest : List Token} {i : NodeId} (open_here : t.isEnding = false) :
    Reader.take ⟨t :: rest, i⟩ = .ok t ⟨rest, i⟩ := by
  unfold Reader.take Cursor.next
  simp only [open_here, Bool.false_eq_true, ↓reduceIte]
  rfl

theorem cons_of_current {c : Cursor} (open_here : c.current.isEnding = false) :
    ∃ rest, c.rest = c.current :: rest := by
  cases left : c.rest with
  | nil =>
    have ending : c.current = .ending 0 := congrArg headOf left
    rw [ending] at open_here
    cases open_here
  | cons t rest =>
    have same : c.current = t := congrArg headOf left
    exact ⟨rest, by rw [same]⟩

include kinds in
theorem of_take {r r' : Reader Token}
    (only : ∀ c a c', first c.current → r c = .ok a c' → c.current.isEnding = false ∧
      Reader.take c = .ok a c' ∧ ∀ d : Cursor, Tight c.current d.current → r' d = Reader.take d) :
    Carries φ k first looks True φ r r' := by
  intro c a c' here read
  obtain ⟨open_here, taking, elsewhere⟩ := only c a c' here read
  obtain ⟨rest, split⟩ := cons_of_current open_here
  obtain ⟨tokens, i⟩ := c
  change tokens = _ at split
  rw [split, take_cons open_here] at taking
  cases taking
  refine ⟨[_], split, List.forall_mem_singleton.mpr open_here, fun _ => List.cons_ne_nil _ _,
    fun other long alike => ?_⟩
  rw [elsewhere _ (tight_change kinds _)]
  refine take_cons ?_
  unfold Token.isEnding at open_here ⊢
  rw [kinds]
  exact open_here

include kinds in
theorem take : Carries φ k (fun t => t.isEnding = false) looks True φ Reader.take Reader.take :=
  of_take kinds fun _ _ _ here read => ⟨here, read, fun _ _ => rfl⟩

include kinds in
theorem take_of {t : Token} (open_here : t.isEnding = false) :
    Carries φ k (fun u => u = t) looks True φ Reader.take Reader.take :=
  (take kinds).strengthen fun _ same => same ▸ open_here

include kinds in
theorem expect (s : Symbol) (place : Place) :
    Carries φ k first looks True φ (Reader.expect s place) (Reader.expect s place) := by
  have reading : ∀ c : Cursor, Reader.expect s place c =
      if c.current.isSymbol s then Reader.take c else
        (Reader.unexpected (.symbol s place) c.current : Reader Token) c := by
    intro c
    change (if c.current.isSymbol s then Reader.take else _) c = _
    split <;> rfl
  refine of_take kinds fun c a c' here read => ?_
  rw [reading] at read
  split at read
  · rename_i found
    have kind := eq_of_beq found
    refine ⟨?_, read, fun d alike => ?_⟩
    · unfold Token.isEnding
      rw [kind]
      rfl
    · rw [reading, if_pos]
      unfold Token.isSymbol at found ⊢
      rwa [← alike]
  · cases read

include kinds in
theorem expectName (role : NameRole) :
    Carries φ k first looks True φ (Reader.expectName role) (Reader.expectName role) := by
  have reading : ∀ c : Cursor, Reader.expectName role c =
      if c.current.kind = .identifier then Reader.take c else
        (Reader.unexpected (.name role) c.current : Reader Token) c := by
    intro c
    change (if c.current.kind = .identifier then Reader.take else _) c = _
    split <;> rfl
  refine of_take kinds fun c a c' here read => ?_
  rw [reading] at read
  split at read
  · rename_i kind
    refine ⟨?_, read, fun d alike => ?_⟩
    · unfold Token.isEnding
      rw [kind]
      rfl
    · rw [reading, if_pos (alike.symm.trans kind)]
  · cases read

theorem current_eq {c : Cursor} {f : Token → Reader γ} :
    (Reader.current >>= f) c = f c.current c := rfl

theorem current_taking {f : Token → Reader γ} {f' : Token → Reader δ}
    (each : ∀ t, first t → Carries φ k (fun u => u = t) looks True change' (f t) (f' (φ t))) :
    Carries φ k first looks takes change' (Reader.current >>= f) (Reader.current >>= f') := by
  intro c b c' here read
  obtain ⟨taken, split, open_taken, some_taken, elsewhere⟩ := each c.current here c b c' rfl read
  refine ⟨taken, split, open_taken, fun _ => some_taken True.intro, fun other long alike => ?_⟩
  have known := some_taken True.intro
  cases taken with
  | nil => exact absurd rfl known
  | cons t rest =>
    have seen : c.current = t := congrArg headOf split
    subst seen
    rw [current_eq]
    exact elsewhere other long alike

include kinds in
theorem current_bind {f : Token → Reader γ} {f' : Token → Reader δ}
    (sees : ∀ t u, looks t u → Tight t u)
    (each : ∀ t u, Tight t u → first t →
      Carries φ k (fun v => v = t) looks takes change' (f t) (f' u)) :
    Carries φ k first looks takes change' (Reader.current >>= f) (Reader.current >>= f') := by
  intro c b c' here read
  obtain ⟨taken, split, open_taken, some_taken, _⟩ :=
    each c.current c.current rfl here c b c' rfl read
  refine ⟨taken, split, open_taken, some_taken, fun other long alike => ?_⟩
  have behind : Tight c.current (headOf (taken.map φ ++ other)) :=
    looks_behind split (tight_change kinds) fun _ => sees _ _ alike
  obtain ⟨taken', split', _, _, elsewhere⟩ := each c.current _ behind here c b c' rfl read
  have same : taken' = taken := List.append_cancel_right (split'.symm.trans split)
  subst same
  exact elsewhere other long alike

theorem takeIf_bind_eq (test : Token → Bool) (f : Bool → Reader γ) (c : Cursor) :
    (Reader.takeIf test >>= f) c =
      if test c.current then (Reader.take >>= fun _ => f true) c else f false c := by
  change ((if test c.current then Reader.take >>= fun _ => Pure.pure true else Pure.pure false) >>= f) c = _
  split <;> rfl

include kinds in
/-- A token that is taken if it passes the test. -/
theorem takeIf_bind {test : Token → Bool} (kindly : KindTest test) {f : Bool → Reader γ}
    {f' : Bool → Reader δ} (yes : Carries φ k (fun _ => True) looks False change' (f true) (f' true))
    (no : Carries φ k (fun t => first t ∧ test t = false) looks takes change' (f false) (f' false))
    (agree : takes ∨ ∀ t u, looks t u → test t = test u) :
    Carries φ k first looks takes change' (Reader.takeIf test >>= f)
      (Reader.takeIf test >>= f') := by
  intro c b c' here read
  rw [takeIf_bind_eq] at read
  cases tested : test c.current with
  | true =>
    rw [if_pos tested] at read
    have open_here := kindly.goes _ tested
    have behind : Carries φ k (fun t => t.isEnding = false) looks True change'
        (Reader.take >>= fun _ => f true) (Reader.take >>= fun _ => f' true) :=
      (take kinds).andThen fun _ => yes
    obtain ⟨taken, split, open_taken, some_taken, elsewhere⟩ := behind c b c' open_here read
    refine ⟨taken, split, open_taken, fun _ => some_taken True.intro, fun other long alike => ?_⟩
    have known := some_taken True.intro
    have seen : Tight c.current (headOf (taken.map φ ++ other)) :=
      looks_behind split (tight_change kinds) fun none => absurd none known
    rw [takeIf_bind_eq, if_pos]
    · exact elsewhere other long alike
    · exact (kindly.kind _ _ seen).symm.trans tested
  | false =>
    rw [if_neg (Bool.eq_false_iff.mp tested)] at read
    obtain ⟨taken, split, open_taken, some_taken, elsewhere⟩ := no c b c' ⟨here, tested⟩ read
    refine ⟨taken, split, open_taken, some_taken, fun other long alike => ?_⟩
    have seen : test c.current = test (headOf (taken.map φ ++ other)) := by
      refine @looks_behind φ (fun t u => test t = test u) _ _ _ _ split ?_ fun none => ?_
      · exact fun t => kindly.kind _ _ (tight_change kinds t)
      · rcases agree with known | same
        · exact absurd none (some_taken known)
        · exact same _ _ alike
    rw [takeIf_bind_eq, if_neg]
    · exact elsewhere other long alike
    · exact Bool.eq_false_iff.mp (seen.symm.trans tested)

section Repetitions

variable {test : Token → Bool} (kindly : KindTest test) {step : α → Reader α} {step' : β → Reader β}

theorem repeatUpTo_stop {n : Nat} {a : α} {c : Cursor} (stops : test c.current = false) :
    repeatUpTo test step n a c = .ok a c := by
  cases n with
  | zero => rfl
  | succ n =>
    change (if test c.current then step a >>= repeatUpTo test step n else Pure.pure a : Reader α) c = _
    rw [if_neg (Bool.eq_false_iff.mp stops)]
    rfl

theorem repeatUpTo_go {n : Nat} {a : α} {c : Cursor} (goes : test c.current = true) :
    repeatUpTo test step (n + 1) a c = (step a >>= repeatUpTo test step n) c := by
  change (if test c.current then step a >>= repeatUpTo test step n else Pure.pure a : Reader α) c = _
  rw [if_pos goes]

variable (change step') in
include kinds kindly in
/-- The steps that a repetition takes, the same repetition takes elsewhere, however it goes on
there. -/
theorem repeatUpTo_prefix (reflects : ∀ t, near t (φ t))
    (each : ∀ a, Carries φ k (fun t => test t = true) near True change (step a) (step' (change a)))
    {n : Nat} {a b : α} {c c' : Cursor} (enough : c.rest.length ≤ n)
    (read : repeatUpTo test step n a c = .ok b c') :
    ∃ taken, c.rest = taken ++ c'.rest ∧ (∀ t ∈ taken, t.isEnding = false) ∧
      test c'.current = false ∧
      ∀ other, c'.rest.length ≤ other.length → near c'.current (headOf other) →
        ∀ m, taken.length ≤ m → ∃ left, m ≤ left + taken.length ∧
          repeatUpTo test step' m (change a) ⟨taken.map φ ++ other, c.nextId + k⟩ =
            repeatUpTo test step' left (change b) ⟨other, c'.nextId + k⟩ := by
  induction n generalizing a c with
  | zero =>
    have stops : test c.current = false := by
      refine kindly.ending _ ?_
      rw [Cursor.current, List.length_eq_zero_iff.mp (Nat.le_zero.mp enough)]
      rfl
    rw [repeatUpTo_stop stops] at read
    cases read
    exact ⟨[], rfl, nofun, stops, fun other _ _ m _ => ⟨m, Nat.le_refl m, rfl⟩⟩
  | succ n ih =>
    cases tested : test c.current with
    | false =>
      rw [repeatUpTo_stop tested] at read
      cases read
      exact ⟨[], rfl, nofun, tested, fun other _ _ m _ => ⟨m, Nat.le_refl m, rfl⟩⟩
    | true =>
      rw [repeatUpTo_go tested] at read
      obtain ⟨mid, between, one, rest⟩ := bind_ok.mp read
      obtain ⟨taken, split, open_taken, some_taken, elsewhere⟩ := each a c mid between tested one
      have known := some_taken True.intro
      have fewer : between.rest.length ≤ n := by
        have lengths := congrArg List.length split
        rw [List.length_append] at lengths
        have positive := List.length_pos_iff.mpr known
        omega
      obtain ⟨taken', split', open_taken', stops, elsewhere'⟩ := ih fewer rest
      refine ⟨taken ++ taken', ?_, List.forall_mem_append.mpr ⟨open_taken, open_taken'⟩, stops, ?_⟩
      · rw [split, split', List.append_assoc]
      · intro other long alike m several
        rw [List.length_append] at several
        have behind : near between.current (headOf (taken'.map φ ++ other)) :=
          looks_behind split' reflects fun _ => alike
        have seen : Tight c.current (headOf (taken.map φ ++ (taken'.map φ ++ other))) :=
          looks_behind split (tight_change kinds) fun none => absurd none known
        have long' : between.rest.length ≤ (taken'.map φ ++ other).length := by
          rw [split', List.length_append, List.length_append, List.length_map]
          exact Nat.add_le_add_left long _
        have positive := List.length_pos_iff.mpr known
        obtain ⟨m, rfl⟩ : ∃ less, m = less + 1 := ⟨m - 1, by omega⟩
        obtain ⟨left, least, same⟩ := elsewhere' other long alike m (by omega)
        refine ⟨left, by rw [List.length_append]; omega, ?_⟩
        rw [List.map_append, List.append_assoc, repeatUpTo_go ((kindly.kind _ _ seen).symm.trans tested),
          ← same]
        change EStateM.bind _ _ _ = _
        unfold EStateM.bind
        rw [elsewhere _ long' behind]

include kinds kindly in
theorem repeatWhile (reflects : ∀ t, near t (φ t)) (narrower : ∀ t u, looks t u → near t u)
    (agree : ∀ t u, looks t u → test t = test u)
    (each : ∀ a, Carries φ k (fun t => test t = true) near True change (step a) (step' (change a)))
    (a : α) :
    Carries φ k first looks False change (Reader.repeatWhile test step a)
      (Reader.repeatWhile test step' (change a)) := by
  intro c b c' here read
  obtain ⟨taken, split, open_taken, stops, elsewhere⟩ :=
    repeatUpTo_prefix change kinds kindly step' reflects each (Nat.le_refl _) read
  refine ⟨taken, split, open_taken, False.elim, fun other long alike => ?_⟩
  have several : taken.length ≤ (taken.map φ ++ other).length := by
    rw [List.length_append, List.length_map]
    exact Nat.le_add_right _ _
  obtain ⟨left, _, same⟩ := elsewhere other long (narrower _ _ alike) _ several
  change repeatUpTo test step' (taken.map φ ++ other).length (change a) _ = _
  rw [same]
  exact repeatUpTo_stop ((agree _ _ alike).symm.trans stops)

include kinds kindly in
theorem many {item : Reader α} {item' : Reader β} (reflects : ∀ t, near t (φ t))
    (narrower : ∀ t u, looks t u → near t u) (agree : ∀ t u, looks t u → test t = test u)
    (refl : ∀ t, looks t (φ t))
    (each : Carries φ k (fun t => test t = true) near True change item item') :
    Carries φ k first looks False (List.map change) (Reader.many test item)
      (Reader.many test item') := by
  have one : ∀ items, Carries φ k (fun t => test t = true) near True (List.map change)
      (do return (← item) :: items) (do return (← item') :: items.map change) :=
    fun items => each.map (fun _ => rfl) reflects
  have loop : Carries φ k first looks False (List.map change)
      (Reader.repeatWhile test (fun items => do return (← item) :: items) [])
      (Reader.repeatWhile test (fun items => do return (← item') :: items) []) :=
    repeatWhile kinds kindly reflects narrower agree one []
  refine loop.bind (fun items => pure ?_) refl fun _ _ alike => alike
  exact List.map_reverse

include kinds in
theorem separated {item : Reader α} {item' : Reader β} (reflects : ∀ t, near t (φ t))
    (narrower : ∀ t u, Tight t u → near t u)
    (each : ∀ {first : Token → Prop}, Carries φ k first near True change item item') :
    Carries φ k first Tight True (List.map change) (Reader.separated item)
      (Reader.separated item') := by
  have comma : KindTest (·.isSymbol .comma) := KindTest.symbol .comma
  refine each.bind (fun a => ?_) reflects narrower
  have others : Carries φ k (fun _ => True) Tight False (List.map change)
      (Reader.many (·.isSymbol .comma) (do let _ ← Reader.take; item))
      (Reader.many (·.isSymbol .comma) (do let _ ← Reader.take; item')) := by
    refine many kinds comma reflects narrower comma.kind (tight_change kinds) ?_
    exact ((take kinds).andThen fun _ => each.perhaps).strengthen comma.goes
  exact others.map (fun _ => rfl) (tight_change kinds)

include kinds in
theorem separatedBefore (closing : Symbol) {item : Reader α} {item' : Reader β}
    (reflects : ∀ t, near t (φ t)) (narrower : ∀ t u, Tight t u → near t u)
    (each : ∀ {first : Token → Prop}, Carries φ k first near True change item item') :
    Carries φ k first Tight False (List.map change) (Reader.separatedBefore closing item)
      (Reader.separatedBefore closing item') := by
  refine current_bind kinds (fun _ _ alike => alike) fun t u alike _ => ?_
  rw [← (KindTest.symbol closing).kind t u alike]
  split
  · exact pure rfl
  · exact (separated kinds reflects narrower each).perhaps

include kinds in
theorem optionalBefore (closing : Symbol) {item : Reader α} {item' : Reader β}
    (each : ∀ {first : Token → Prop}, Carries φ k first Tight True change item item') :
    Carries φ k first Tight False (Option.map change) (Reader.optionalBefore closing item)
      (Reader.optionalBefore closing item') := by
  refine current_bind kinds (fun _ _ alike => alike) fun t u alike _ => ?_
  rw [← (KindTest.symbol closing).kind t u alike]
  split
  · exact pure rfl
  · have some_item : Carries φ k (fun v => v = t) Tight True (Option.map change)
        (do return some (← item)) (do return some (← item')) :=
      each.map (fun _ => rfl) (tight_change kinds)
    exact some_item.perhaps

theorem foldlM {put : α → γ → Reader α} {put' : β → δ → Reader β} {change : α → β} {change' : γ → δ}
    (each : ∀ a b, Carries φ k (fun _ => True) (fun _ _ => True) False change (put a b)
      (put' (change a) (change' b))) (items : List γ) (a : α) :
    Carries φ k (fun _ => True) (fun _ _ => True) False change (items.foldlM put a)
      ((items.map change').foldlM put' (change a)) := by
  induction items generalizing a with
  | nil => exact pure rfl
  | cons b rest ih =>
    rw [List.map_cons, List.foldlM_cons, List.foldlM_cons]
    exact (each a b).andThen fun a => ih a

end Repetitions

end Tokens

end Carries

end Reader

end LoxMachine
