import LoxMachine.Proofs.Grammar.Stuck

namespace LoxMachine

namespace Reader

variable {ι κ α β γ δ : Type}

/-- What `r` takes, the readers of the family take, and where `r` stops, they are stuck. With no
token taken, the completion begins with a token that `starts` it. -/
structure Repairs (room : Nat) (pre post : List Token → Prop) (takes : Prop)
    (starts may : Token → Prop) (r : Reader α) (r' : ι → Reader β) : Prop where
  passes : ∀ c a c', pre c.rest → r c = .ok a c' →
    ∃ taken, c.rest = taken ++ c'.rest ∧ (takes → taken ≠ []) ∧ post c'.rest ∧
      (taken.length < room → Passes r' taken fun t => t = c'.current ∨ may t)
  stops : ∀ c e c', pre c.rest → r c = .error e c' →
    ∃ taken, c.rest = taken ++ c'.rest ∧ c'.rest ≠ [] ∧
      (taken.length < room → Stuck starts may r' taken c'.current e)

structure Mends (room : Nat) (pre post : List Token → Prop) (takes : Prop)
    (starts may : Token → Prop) (r : Reader α) (r' : ι → Reader β) : Prop extends
    Repairs room pre post takes starts may r r' where
  fills : 0 < room → Fills starts may r'

namespace Repairs

variable {room room₁ : Nat} {pre mid post : List Token → Prop} {takes takes₁ takes₂ : Prop}
  {starts begins may near : Token → Prop} {r : Reader α} {r' : ι → Reader γ} {f : α → Reader β}
  {f' : ι → γ → Reader δ}

theorem strengthen {narrow : List Token → Prop}
    (repairs : Repairs room pre post takes starts may r r') (narrower : ∀ rest, narrow rest → pre rest) :
    Repairs room narrow post takes starts may r r' where
  passes c a c' here := repairs.passes c a c' (narrower _ here)
  stops c e c' here := repairs.stops c e c' (narrower _ here)

theorem lower (repairs : Repairs room pre post takes starts may r r') (less : room₁ ≤ room) :
    Repairs room₁ pre post takes starts may r r' where
  passes c a c' here read := by
    obtain ⟨taken, split, some_taken, after, passes⟩ := repairs.passes c a c' here read
    exact ⟨taken, split, some_taken, after, fun short => passes (Nat.lt_of_lt_of_le short less)⟩
  stops c e c' here read := by
    obtain ⟨taken, split, some_left, stuck⟩ := repairs.stops c e c' here read
    exact ⟨taken, split, some_left, fun short => stuck (Nat.lt_of_lt_of_le short less)⟩

theorem perhaps (repairs : Repairs room pre post True starts may r r') :
    Repairs room pre post takes starts may r r' where
  passes c a c' here read := by
    obtain ⟨taken, split, some_taken, others⟩ := repairs.passes c a c' here read
    exact ⟨taken, split, fun _ => some_taken True.intro, others⟩
  stops := repairs.stops

theorem widen (repairs : Repairs room pre post takes begins near r r')
    (wider : ∀ u, begins u → starts u) (narrower : ∀ u, may u → near u) :
    Repairs room pre post takes starts may r r' where
  passes c a c' here read := by
    obtain ⟨taken, split, some_taken, after, passes⟩ := repairs.passes c a c' here read
    exact ⟨taken, split, some_taken, after,
      fun short => (passes short).mono fun u => Or.imp_right (narrower u)⟩
  stops c e c' here read := by
    obtain ⟨taken, split, some_left, stuck⟩ := repairs.stops c e c' here read
    exact ⟨taken, split, some_left, fun short => (stuck short).widen wider narrower⟩

theorem anyhow (repairs : Repairs room pre post takes Never may r r') :
    Repairs room pre post takes starts may r r' :=
  repairs.widen (fun _ none => none.elim) fun _ next => next

theorem loose (repairs : Repairs room pre post takes starts may r r') :
    Repairs room pre post False Any may r r' where
  passes c a c' here read := by
    obtain ⟨taken, split, -, others⟩ := repairs.passes c a c' here read
    exact ⟨taken, split, False.elim, others⟩
  stops := (repairs.widen (fun _ _ => True.intro) fun _ next => next).stops

theorem reindex {r'' : κ → Reader γ} (repairs : Repairs room pre post takes starts may r r')
    (g : κ → ι) (same : ∀ y, r'' y = r' (g y)) : Repairs room pre post takes starts may r r'' where
  passes c a c' here read := by
    obtain ⟨taken, split, some_taken, after, passes⟩ := repairs.passes c a c' here read
    exact ⟨taken, split, some_taken, after, fun short => (passes short).reindex g same⟩
  stops c e c' here read := by
    obtain ⟨taken, split, some_left, stuck⟩ := repairs.stops c e c' here read
    exact ⟨taken, split, some_left, fun short => (stuck short).reindex g same⟩

theorem roomless {r'' : κ → Reader δ} (repairs : Repairs 0 pre post takes starts may r r') :
    Repairs 0 pre post takes starts may r r'' where
  passes c a c' here read := by
    obtain ⟨taken, split, some_taken, after, -⟩ := repairs.passes c a c' here read
    exact ⟨taken, split, some_taken, after, fun short => absurd short (Nat.not_lt_zero _)⟩
  stops c e c' here read := by
    obtain ⟨taken, split, some_left, -⟩ := repairs.stops c e c' here read
    exact ⟨taken, split, some_left, fun short => absurd short (Nat.not_lt_zero _)⟩

/-- One reader after another. If the first takes a token, the second needs less room. -/
theorem compose (one : Repairs room pre mid takes₁ starts near r r')
    (two : ∀ a, Repairs room₁ mid post takes₂ begins may (f a) fun x : ι × γ => f' x.1 x.2)
    (fills : 0 < room → Fills begins may fun x : ι × γ => f' x.1 x.2)
    (enough : room ≤ room₁ ∨ takes₁ ∧ room ≤ room₁ + 1)
    (behind : ∀ u, begins u → near u) (narrower : takes₂ ∨ ∀ u, may u → near u)
    (wider : takes₁ ∨ ∀ u, begins u → starts u) (less : takes → takes₁ ∨ takes₂) :
    Repairs room pre post takes starts may (r >>= f) fun x => r' x >>= f' x where
  passes c b c' here read := by
    obtain ⟨a, between, before, after⟩ := bind_ok.mp read
    obtain ⟨taken, split, some_taken, there, passes⟩ := one.passes c a between here before
    obtain ⟨taken', split', some_taken', last, passes'⟩ := (two a).passes between b c' there after
    refine ⟨taken ++ taken', by rw [split, split', List.append_assoc], fun known none => ?_, last,
      fun short => ?_⟩
    · obtain ⟨left, right⟩ := List.append_eq_nil_iff.mp none
      exact (less known).elim (some_taken · left) (some_taken' · right)
    · rw [List.length_append] at short
      have fits : taken'.length < room₁ := by
        rcases enough with same | ⟨known, same⟩
        · omega
        · have := List.length_pos_iff.mpr (some_taken known)
          omega
      refine (passes (by omega)).bind (passes' fits) fun u next => ?_
      by_cases none : taken' = []
      · have same := current_of_none split' none
        subst none
        rcases next with rfl | next
        · exact .inl same
        · rcases narrower with known | narrower
          · exact absurd rfl (some_taken' known)
          · exact .inr (narrower u next)
      · exact .inl (headOf_taken split' none u)
  stops c e c' here read := by
    cases before : r c with
    | error e' stop =>
      rw [bind_of_error before] at read
      cases read
      obtain ⟨taken, split, some_left, stuck⟩ := one.stops c e c' here before
      exact ⟨taken, split, some_left, fun short => (stuck short).bind (fills (by omega)) behind⟩
    | ok a between =>
      rw [bind_of_ok before] at read
      obtain ⟨taken, split, some_taken, there, passes⟩ := one.passes c a between here before
      obtain ⟨taken', split', some_left, stuck⟩ := (two a).stops between e c' there read
      refine ⟨taken ++ taken', by rw [split, split', List.append_assoc], some_left, fun short => ?_⟩
      rw [List.length_append] at short
      have fits : taken'.length < room₁ := by
        rcases enough with same | ⟨known, same⟩
        · omega
        · have := List.length_pos_iff.mpr (some_taken known)
          omega
      exact (stuck fits).behind split' (passes (by omega)) behind (wider.imp_left some_taken)

theorem still {fits : Token → Prop} (idle : ∀ c, pre c.rest → ∃ a i, r c = .ok a ⟨c.rest, i⟩)
    (idle' : ∀ x t other j, fits t → ∃ a j', r' x ⟨t :: other, j⟩ = .ok a ⟨t :: other, j'⟩)
    (here : ∀ rest, pre rest → fits (headOf rest)) (behind : ∀ u, may u → fits u) :
    Repairs room pre pre False starts may r r' where
  passes c a c' within read := by
    obtain ⟨b, i, still⟩ := idle c within
    rw [still] at read
    cases read
    refine ⟨[], rfl, False.elim, within, fun _ x j t other next => idle' x t other j ?_⟩
    rcases next with rfl | next
    · exact here _ within
    · exact behind t next
  stops c e c' within read := by
    obtain ⟨b, i, still⟩ := idle c within
    cases still.symm.trans read

theorem pure {a : α} {b : ι → γ} :
    Repairs room pre pre False starts may (pure a) fun x => Pure.pure (b x) :=
  still (fun c _ => ⟨a, c.nextId, rfl⟩) (fun x _ _ j _ => ⟨b x, j, rfl⟩) (fun _ _ => True.intro)
    fun _ _ => True.intro

theorem take_bind {admitted : Token → Prop} {f : Token → Reader α} {f' : ι → Token → Reader γ}
    (heads : ∀ rest, pre rest → ∃ t behind, rest = t :: behind ∧ admitted t ∧ mid behind)
    (goes : ∀ t, admitted t → t.isEnding = false) (enough : room ≤ room₁ + 1)
    (each : ∀ t, admitted t → Repairs room₁ mid post False Any may (f t) (f' · t)) :
    Repairs room pre post True starts may (Reader.take >>= f) fun x => Reader.take >>= f' x where
  passes c a c' here read := by
    obtain ⟨tokens, i⟩ := c
    obtain ⟨t, behind, rfl, admits, there⟩ := heads _ here
    rw [bind_of_ok (Carries.take_cons (goes t admits))] at read
    obtain ⟨taken, split, -, last, passes⟩ := (each t admits).passes ⟨behind, i⟩ a c' there read
    refine ⟨t :: taken, congrArg (t :: ·) split, fun _ => List.cons_ne_nil _ _, last, fun short => ?_⟩
    rw [List.length_cons] at short
    exact (passes (by omega)).take_bind (goes t admits)
  stops c e c' here read := by
    obtain ⟨tokens, i⟩ := c
    obtain ⟨t, behind, rfl, admits, there⟩ := heads _ here
    rw [bind_of_ok (Carries.take_cons (goes t admits))] at read
    obtain ⟨taken, split, some_left, stuck⟩ := (each t admits).stops ⟨behind, i⟩ e c' there read
    refine ⟨t :: taken, congrArg (t :: ·) split, some_left, fun short => ?_⟩
    rw [List.length_cons] at short
    exact (stuck (by omega)).take_bind (goes t admits)

theorem take {admitted : Token → Prop}
    (heads : ∀ rest, pre rest → ∃ t behind, rest = t :: behind ∧ admitted t ∧ mid behind)
    (goes : ∀ t, admitted t → t.isEnding = false) :
    Repairs room pre mid True starts may Reader.take fun _ : ι => Reader.take := by
  have same : (Reader.take : Reader Token) = Reader.take >>= Pure.pure := (bind_pure _).symm
  rw [same]
  have done : ∀ t : Token, Repairs room mid mid False Any may (Pure.pure t) fun _ : ι => Pure.pure t :=
    fun _ => pure
  exact take_bind heads goes (Nat.le_succ _) fun t _ => done t

theorem look {t : Token} {f : ι → Token → Reader γ}
    (repairs : Repairs room (fun rest => pre rest ∧ headOf rest = t) post takes starts may r (f · t))
    (first : ∀ u, starts u → ∀ x, f x u = f x t)
    (last : takes ∨ ∀ u, may u → ∀ x, f x u = f x t) :
    Repairs room (fun rest => pre rest ∧ headOf rest = t) post takes starts may r
      fun x => Reader.current >>= f x where
  passes c a c' here read := by
    obtain ⟨taken, split, some_taken, after, passes⟩ := repairs.passes c a c' here read
    refine ⟨taken, split, some_taken, after, fun short => (passes short).look fun u next x => ?_⟩
    by_cases none : taken = []
    · have same := current_of_none split none
      subst none
      rcases next with rfl | next
      · exact congrArg (f x) (same.trans here.2)
      · rcases last with known | last
        · exact absurd rfl (some_taken known)
        · exact last u next x
    · exact congrArg (f x) ((headOf_taken split none u).trans here.2)
  stops c e c' here read := by
    obtain ⟨taken, split, some_left, stuck⟩ := repairs.stops c e c' here read
    refine ⟨taken, split, some_left, fun short => (stuck short).look ?_ first⟩
    by_cases none : taken = []
    · have same := current_of_none split none
      subst none
      exact same.trans here.2
    · exact (headOf_taken split none _).trans here.2

theorem unexpected {t : Token} {expected : Expectation} (some_left : ∀ rest, pre rest → rest ≠ [])
    (fills : 0 < room → ∃ next more, Open (next :: more) ∧ starts next ∧ Passes r' (next :: more) may)
    (hopeless : t.isEnding = false → Rejects r' [t]) :
    Repairs room (fun rest => pre rest ∧ headOf rest = t) post takes starts may
      (Reader.unexpected expected t : Reader α) r' where
  passes c a c' _ read := by cases read
  stops c e c' here read := by
    cases read
    refine ⟨[], rfl, some_left _ here.1, fun room_left => ?_⟩
    obtain ⟨next, more, opens, first, passes⟩ := fills room_left
    have same : c.current = t := here.2
    exact ⟨⟨expected, by rw [same]⟩, ⟨next, more, opens, fun _ => first, passes⟩,
      fun goes => same ▸ hopeless (same ▸ goes)⟩

end Repairs

namespace Mends

variable {room room₁ : Nat} {pre mid post : List Token → Prop} {takes takes₁ takes₂ : Prop}
  {starts begins may near : Token → Prop} {r : Reader α} {r' : ι → Reader γ} {f : α → Reader β}
  {f' : ι → γ → Reader δ}

theorem strengthen {narrow : List Token → Prop}
    (mends : Mends room pre post takes starts may r r') (narrower : ∀ rest, narrow rest → pre rest) :
    Mends room narrow post takes starts may r r' where
  toRepairs := mends.toRepairs.strengthen narrower
  fills := mends.fills

theorem lower (mends : Mends room pre post takes starts may r r') (less : room₁ ≤ room) :
    Mends room₁ pre post takes starts may r r' where
  toRepairs := mends.toRepairs.lower less
  fills some_room := mends.fills (Nat.lt_of_lt_of_le some_room less)

theorem loose (mends : Mends room pre post takes starts may r r') :
    Repairs room pre post False Any may r r' :=
  mends.toRepairs.loose

theorem widen (mends : Mends room pre post takes begins near r r')
    (wider : ∀ u, begins u → starts u) (narrower : ∀ u, may u → near u) :
    Mends room pre post takes starts may r r' where
  toRepairs := mends.toRepairs.widen wider narrower
  fills some_room := (mends.fills some_room).widen wider narrower

theorem reindex {r'' : κ → Reader γ} (mends : Mends room pre post takes starts may r r') (g : κ → ι)
    (same : ∀ y, r'' y = r' (g y)) : Mends room pre post takes starts may r r'' where
  toRepairs := mends.toRepairs.reindex g same
  fills some_room := (mends.fills some_room).reindex g same

theorem roomless {r'' : κ → Reader δ} (mends : Mends 0 pre post takes starts may r r') :
    Mends 0 pre post takes starts may r r'' where
  toRepairs := mends.toRepairs.roomless
  fills none := absurd none (Nat.lt_irrefl 0)

theorem failing (fails : ∀ c, ∃ e, r c = .error e c) (some_left : ∀ rest, pre rest → rest ≠ []) :
    Mends 0 pre post takes starts may r r' where
  passes c a c' _ read := by
    obtain ⟨e, fails⟩ := fails c
    cases fails.symm.trans read
  stops c e c' here read := by
    obtain ⟨e', fails⟩ := fails c
    cases fails.symm.trans read
    exact ⟨[], rfl, some_left _ here, fun none => absurd none (Nat.lt_irrefl 0)⟩
  fills none := absurd none (Nat.lt_irrefl 0)

theorem bind [some_value : Nonempty α] (one : Mends room pre mid takes₁ starts near r r')
    (two : ∀ a, Mends room mid post takes₂ begins may (f a) fun x : ι × γ => f' x.1 x.2)
    (behind : ∀ u, begins u → near u) (narrower : takes₂ ∨ ∀ u, may u → near u)
    (wider : takes₁ ∨ ∀ u, begins u → starts u) (less : takes → takes₁ ∨ takes₂) :
    Mends room pre post takes starts may (r >>= f) fun x => r' x >>= f' x := by
  obtain ⟨a⟩ := some_value
  exact
    { toRepairs := one.toRepairs.compose (fun a => (two a).toRepairs) (two a).fills
        (.inl (Nat.le_refl _)) behind narrower wider less
      fills := fun some_room => (one.fills some_room).bind ((two a).fills some_room) behind }

theorem follow [Nonempty α] (one : Mends room pre mid True starts Any r r')
    (two : ∀ a, Mends room mid post takes₂ begins may (f a) fun x : ι × γ => f' x.1 x.2) :
    Mends room pre post True starts may (r >>= f) fun x => r' x >>= f' x :=
  one.bind two (fun _ _ => True.intro) (.inr fun _ _ => True.intro) (.inl True.intro) .inl

theorem upTo [Nonempty α] (one : Mends room pre mid takes₁ starts near r r')
    (two : ∀ a, Mends room mid post True begins may (f a) fun x : ι × γ => f' x.1 x.2)
    (behind : ∀ u, begins u → near u) (wider : takes₁ ∨ ∀ u, begins u → starts u) :
    Mends room pre post True starts may (r >>= f) fun x => r' x >>= f' x :=
  one.bind two behind (.inl True.intro) wider .inr

theorem still {fits : Token → Prop} (idle : ∀ c, pre c.rest → ∃ a i, r c = .ok a ⟨c.rest, i⟩)
    (idle' : ∀ x t other j, fits t → ∃ a j', r' x ⟨t :: other, j⟩ = .ok a ⟨t :: other, j'⟩)
    (here : ∀ rest, pre rest → fits (headOf rest)) (behind : ∀ u, may u → fits u) :
    Mends room pre pre False may may r r' where
  toRepairs := .still idle idle' here behind
  fills _ := ⟨[], nofun, fun _ next => next, fun x j t other next => idle' x t other j (behind t next)⟩

theorem pure {a : α} {b : ι → γ} :
    Mends room pre pre False may may (pure a) fun x => Pure.pure (b x) :=
  still (fun c _ => ⟨a, c.nextId, rfl⟩) (fun x _ _ j _ => ⟨b x, j, rfl⟩) (fun _ _ => True.intro)
    fun _ _ => True.intro

theorem node {build : NodeId → α} {build' : ι → NodeId → γ} :
    Mends room pre pre False may may (Reader.node build) fun x => Reader.node (build' x) :=
  still (fun _ _ => ⟨_, _, rfl⟩) (fun _ _ _ _ _ => ⟨_, _, rfl⟩) (fun _ _ => True.intro)
    fun _ _ => True.intro

theorem yield [Nonempty α] (one : Mends room pre mid takes starts may r r')
    (two : ∀ a, Mends room mid post False may may (f a) fun x : ι × γ => f' x.1 x.2)
    (wider : takes ∨ ∀ u, may u → starts u) :
    Mends room pre post takes starts may (r >>= f) fun x => r' x >>= f' x :=
  one.bind two (fun _ next => next) (.inr fun _ next => next) wider .inl

theorem map [Nonempty α] {g : α → β} {g' : ι → γ → δ}
    (mends : Mends room pre post takes starts may r r') (wider : takes ∨ ∀ u, may u → starts u) :
    Mends room pre post takes starts may (g <$> r) fun x => g' x <$> r' x :=
  mends.yield (fun _ => pure) wider

theorem current_bind {f : Token → Reader α} {f' : ι → Token → Reader γ}
    (each : ∀ t, Repairs room (fun rest => pre rest ∧ headOf rest = t) post takes starts may (f t)
      fun x => Reader.current >>= f' x)
    (fills : 0 < room → Fills starts may fun x => Reader.current >>= f' x) :
    Mends room pre post takes starts may (Reader.current >>= f) fun x => Reader.current >>= f' x where
  passes c a c' here read := (each c.current).passes c a c' ⟨here, rfl⟩ read
  stops c e c' here read := (each c.current).stops c e c' ⟨here, rfl⟩ read
  fills := fills

/-- A token that has to be of some kind. -/
theorem wanted {test : Token → Prop} [DecidablePred test] {expected : Expectation}
    (sample : Token) (fits : test sample) (goes : ∀ t, test t → t.isEnding = false)
    (some_left : ∀ rest, pre rest → rest ≠ [])
    (steps : ∀ t behind, pre (t :: behind) → test t → mid behind) :
    Mends room pre mid True test Any
      (do let t ← Reader.current; if test t then Reader.take else Reader.unexpected expected t)
      (fun _ : ι => do
        let t ← Reader.current
        if test t then Reader.take else Reader.unexpected expected t) := by
  have passes : Passes (fun _ : ι => do
      let t ← Reader.current
      if test t then Reader.take else Reader.unexpected expected t) [sample] Any := by
    refine Passes.look (t := sample) ?_ fun _ _ _ => rfl
    simp only [if_pos fits]
    exact .take (goes sample fits)
  refine current_bind (fun t => ?_) fun _ => .single (goes sample fits) fits passes
  by_cases tested : test t
  · rw [if_pos tested]
    refine Repairs.look ?_ ?_ (.inl True.intro)
    · simp only [if_pos tested]
      have heads : ∀ rest, pre rest ∧ headOf rest = t →
          ∃ u behind, rest = u :: behind ∧ test u ∧ mid behind := by
        rintro rest ⟨here, rfl⟩
        obtain ⟨u, behind, rfl⟩ := List.exists_cons_of_ne_nil (some_left rest here)
        exact ⟨u, behind, rfl, tested, steps u behind here tested⟩
      exact .take heads goes
    · intro u fits' _
      rw [if_pos fits', if_pos tested]
  · rw [if_neg tested]
    refine .unexpected some_left (fun _ => ⟨sample, [], .single (goes sample fits), fits, passes⟩) ?_
    refine fun _ => Rejects.look (t := t) ?_ (List.cons_ne_nil _ _) fun _ => rfl
    simp only [if_neg tested]
    exact fun _ _ _ => ⟨_, _, rfl⟩

/-- A token that is taken if it passes the test. -/
theorem takeIf_bind {test : Token → Bool} (kindly : KindTest test) {f : Bool → Reader α}
    {f' : ι → Bool → Reader γ} (steps : ∀ t behind, pre (t :: behind) → test t = true → mid behind)
    (yes : Repairs room mid post False Any may (f true) (f' · true))
    (no : Mends room (fun rest => pre rest ∧ test (headOf rest) = false) post takes starts may (f false)
      (f' · false))
    (first : ∀ u, starts u → test u = false) (last : takes ∨ ∀ u, may u → test u = false) :
    Mends room pre post takes starts may (Reader.takeIf test >>= f)
      fun x => Reader.takeIf test >>= f' x := by
  have split : ∀ {δ : Type} (g : Bool → Reader δ), (Reader.takeIf test >>= g) =
      (Reader.current >>= fun t => if test t then Reader.take >>= fun _ => g true else g false) := by
    intro δ g
    funext c
    rw [Carries.takeIf_bind_eq, Carries.current_eq]
    split <;> rfl
  simp only [split]
  refine current_bind (fun t => ?_) fun some_room => ?_
  · cases tested : test t with
    | true =>
      have taking : Repairs room (fun rest => pre rest ∧ headOf rest = t) post True Never may
          (Reader.take >>= fun _ => f true) fun x => Reader.take >>= fun _ => f' x true := by
        refine .take_bind ?_ kindly.goes (Nat.le_succ room) fun _ _ => yes
        rintro rest ⟨here, rfl⟩
        obtain ⟨behind, whole⟩ := cons_of_headOf (kindly.goes _ tested)
        exact ⟨headOf rest, behind, whole, tested, steps _ _ (whole ▸ here) tested⟩
      rw [if_pos rfl]
      refine (Repairs.look ?_ (fun _ => False.elim) (.inl True.intro)).anyhow.perhaps
      simp only [tested, if_true]
      exact taking
    | false =>
      rw [if_neg (by decide)]
      refine .look ?_ (fun u begins x => ?_) (last.imp_right fun last u next x => ?_)
      · simp only [tested, Bool.false_eq_true, if_false]
        exact no.toRepairs.strengthen fun rest here => ⟨here.1, here.2 ▸ tested⟩
      · simp only [first u begins, tested]
      · simp only [last u next, tested]
  · obtain ⟨more, opens, begins, passes⟩ := no.fills some_room
    refine ⟨more, opens, begins, fun x j u other next => ?_⟩
    obtain ⟨a, i, read⟩ := passes x j u other next
    refine ⟨a, i, ?_⟩
    have skips := first _ (begins u next)
    rw [← headOf_append_cons more u other] at skips
    change (if test (headOf (more ++ u :: other)) = true then _ else f' x false) _ = _
    rw [if_neg (Bool.eq_false_iff.mp skips)]
    exact read

end Mends

section Limited

variable {room : Nat} {pre post : List Token → Prop} {takes : Prop} {starts may : Token → Prop}
  {read : Nat → Reader α} {read' : ι → Nat → Reader γ} {size : Nat → Nat}

theorem Passes.limited {tokens : List Token} {least : Nat} (enough : ∀ n, n ≤ size n)
    (less : least ≤ tokens.length + 1)
    (passes : Passes (fun x : {m // least ≤ m} × ι => read' x.2 x.1) tokens may) :
    Passes (fun x c => read' x (size c.rest.length) c) tokens may := by
  intro x j t other next
  have long : least ≤ size (tokens ++ t :: other).length := by
    refine Nat.le_trans ?_ (enough _)
    rw [List.length_append, List.length_cons]
    omega
  exact passes (⟨_, long⟩, x) j t other next

theorem Rejects.limited {tokens : List Token} {least : Nat} (enough : ∀ n, n ≤ size n)
    (less : least ≤ tokens.length)
    (rejects : Rejects (fun x : {m // least ≤ m} × ι => read' x.2 x.1) tokens) :
    Rejects (fun x c => read' x (size c.rest.length) c) tokens := by
  intro x j other
  have long : least ≤ size (tokens ++ other).length := by
    refine Nat.le_trans ?_ (enough _)
    rw [List.length_append]
    omega
  exact rejects (⟨_, long⟩, x) j other

variable (read read' size) in
/-- A reader that is limited by the number of its tokens. -/
theorem Repairs.limited (enough : ∀ n, n ≤ size n) (some_left : ∀ rest, post rest → rest ≠ [])
    (each : ∀ {room₁ n}, room₁ ≤ room → room₁ ≤ n → Repairs room₁ pre post takes starts may (read n)
      fun x : {m // room₁ ≤ m} × ι => read' x.2 x.1) :
    Repairs room pre post takes starts may (fun c => read (size c.rest.length) c)
      fun x c => read' x (size c.rest.length) c where
  passes c a c' here found := by
    obtain ⟨taken, split, some_taken, after, -⟩ :=
      (each (Nat.zero_le _) (Nat.zero_le _)).passes c a c' here found
    refine ⟨taken, split, some_taken, after, fun short => ?_⟩
    have fits : taken.length + 1 ≤ size c.rest.length := by
      refine Nat.le_trans ?_ (enough _)
      have := List.length_pos_iff.mpr (some_left _ after)
      rw [split, List.length_append]
      omega
    obtain ⟨taken', split', -, -, passes⟩ := (each short fits).passes c a c' here found
    cases List.append_cancel_right (split'.symm.trans split)
    exact (passes (Nat.lt_succ_self _)).limited enough (Nat.le_refl _)
  stops c e c' here found := by
    obtain ⟨taken, split, more_left, -⟩ :=
      (each (Nat.zero_le _) (Nat.zero_le _)).stops c e c' here found
    refine ⟨taken, split, more_left, fun short => ?_⟩
    have fits : taken.length + 1 ≤ size c.rest.length := by
      refine Nat.le_trans ?_ (enough _)
      have := List.length_pos_iff.mpr more_left
      rw [split, List.length_append]
      omega
    obtain ⟨taken', split', -, stuck⟩ := (each short fits).stops c e c' here found
    cases List.append_cancel_right (split'.symm.trans split)
    obtain ⟨points, ⟨next, more, opens, first, passes⟩, hopeless⟩ := stuck (Nat.lt_succ_self _)
    refine ⟨points, ⟨next, more, opens, first, passes.limited enough ?_⟩, fun goes => ?_⟩
    · rw [List.length_append]
      omega
    · refine (hopeless goes).limited enough ?_
      rw [List.length_append]
      exact Nat.le_refl _

variable (read read' size) in
theorem Mends.limited (enough : ∀ n, n ≤ size n) (some_left : ∀ rest, post rest → rest ≠ [])
    (each : ∀ {room₁ n}, room₁ ≤ room → room₁ ≤ n → Mends room₁ pre post takes starts may (read n)
      fun x : {m // room₁ ≤ m} × ι => read' x.2 x.1) :
    Mends room pre post takes starts may (fun c => read (size c.rest.length) c)
      fun x c => read' x (size c.rest.length) c where
  toRepairs := .limited read read' size enough some_left fun less fits => (each less fits).toRepairs
  fills some_room := by
    obtain ⟨more, opens, first, passes⟩ := (each some_room (Nat.le_refl 1)).fills Nat.zero_lt_one
    exact ⟨more, opens, first, passes.limited enough (Nat.le_add_left _ _)⟩

end Limited

section Repetitions

variable {room room₁ : Nat} {pre : List Token → Prop} {starts begins may near : Token → Prop}
  {test : Token → Bool}

theorem Fills.repeatUpTo {step' : ι → γ → Reader γ} {count : ι → Nat} {start : ι → γ}
    (ends : ∀ u, may u → test u = false) (first : ∀ u, may u → starts u) :
    Fills starts may fun x => Reader.repeatUpTo test (step' x) (count x) (start x) :=
  ⟨[], nofun, first, fun x j _ _ next => ⟨start x, j, Carries.repeatUpTo_stop (ends _ next)⟩⟩

section Steps

variable {step : α → Reader α} {step' : ι → γ → Reader γ}
  (each : ∀ a, Repairs room (fun rest => pre rest ∧ test (headOf rest) = true) pre True begins near
    (step a) fun x : ι × γ => step' x.1 x.2)
  (ends : ∀ u, may u → test u = false ∧ near u) (goes : ∀ u, begins u → test u = true ∧ near u)

abbrev OneOf (begins may : Token → Prop) (t : Token) : Prop := begins t ∨ may t

include each ends goes in
theorem Repairs.repeatUpTo {n : Nat} (less : room₁ ≤ room) (enough : room₁ ≤ n) (a : α) :
    Repairs room₁ pre pre False (OneOf begins may) may (Reader.repeatUpTo test step n a)
      fun x : {m // room₁ ≤ m} × ι × γ => Reader.repeatUpTo test (step' x.2.1) x.1 x.2.2 := by
  induction n generalizing room₁ a with
  | zero =>
    cases Nat.le_zero.mp enough
    have done : Repairs 0 pre pre False (OneOf begins may) may (Pure.pure a)
        fun _ : Unit => Pure.pure a := .pure
    exact done.roomless
  | succ n ih =>
    have fills : Fills (OneOf begins may) may fun x : {m // room₁ - 1 ≤ m} × ι × γ =>
        Reader.repeatUpTo test (step' x.2.1) (x.1 + 1) x.2.2 :=
      .repeatUpTo (fun u next => (ends u next).1) fun _ next => .inr next
    have after : Fills (OneOf begins may) may fun x : ({m // room₁ - 1 ≤ m} × ι × γ) × γ =>
        Reader.repeatUpTo test (step' x.1.2.1) x.1.1 x.2 :=
      .repeatUpTo (fun u next => (ends u next).1) fun _ next => .inr next
    have near_all : ∀ u, OneOf begins may u → near u := fun u next =>
      next.elim (fun begin => (goes u begin).2) fun next => (ends u next).2
    have whole : Repairs room₁ pre pre False (OneOf begins may) may
        (Reader.repeatUpTo test step (n + 1) a)
        fun x : {m // room₁ - 1 ≤ m} × ι × γ =>
          Reader.repeatUpTo test (step' x.2.1) (x.1 + 1) x.2.2 := by
      refine (Mends.current_bind (fun t => ?_) fun _ => fills).toRepairs
      cases tested : test t with
      | true =>
        rw [if_pos rfl]
        have one := ((each a).lower less).reindex
          (fun x : {m // room₁ - 1 ≤ m} × ι × γ => x.2) fun _ => rfl
        have two := fun a => (ih (Nat.le_trans (Nat.sub_le _ 1) less) (by omega) a).reindex
          (fun x : ({m // room₁ - 1 ≤ m} × ι × γ) × γ => (x.1.1, x.1.2.1, x.2)) fun _ => rfl
        have both : Repairs room₁ _ pre True begins may (step a >>= Reader.repeatUpTo test step n)
            fun x : {m // room₁ - 1 ≤ m} × ι × γ =>
              step' x.2.1 x.2.2 >>= Reader.repeatUpTo test (step' x.2.1) x.1 :=
          one.compose two (fun _ => after) (.inr ⟨True.intro, by omega⟩) near_all
            (.inr fun u next => (ends u next).2) (.inl True.intro) fun _ => .inl True.intro
        have here := both.strengthen fun rest (here : pre rest ∧ headOf rest = t) =>
          ⟨here.1, here.2 ▸ tested⟩
        refine (Repairs.widen (.look ?_ (fun u begin x => ?_) (.inl True.intro))
          (fun _ begin => .inl begin) fun _ next => next).perhaps
        · simp only [tested, if_true]
          exact here
        · simp only [tested, (goes u begin).1]
      | false =>
        rw [if_neg (by decide)]
        refine (Repairs.look ?_ (fun _ => False.elim) (.inr fun u next x => ?_)).anyhow
        · simp only [tested, Bool.false_eq_true, if_false]
          exact Repairs.pure.strengthen fun _ here => here.1
        · simp only [tested, (ends u next).1]
    cases room₁ with
    | zero => exact whole.roomless
    | succ room₁ =>
      have fits : ∀ x : {m // room₁ + 1 ≤ m} × ι × γ, room₁ + 1 - 1 ≤ x.1.1 - 1 := by
        intro x
        have := x.1.2
        omega
      refine whole.reindex (fun x => (⟨x.1 - 1, fits x⟩, x.2)) fun x => ?_
      have := x.1.2
      rw [Nat.sub_add_cancel (by omega)]

variable (some_left : ∀ rest, pre rest → rest ≠ [])

variable (step') in
include each ends goes some_left in
theorem Mends.repeatWhile (a : α) :
    Mends room pre pre False (OneOf begins may) may (Reader.repeatWhile test step a)
      fun x : ι × γ => Reader.repeatWhile test (step' x.1) x.2 where
  toRepairs := .limited (fun n => Reader.repeatUpTo test step n a)
    (fun (x : ι × γ) n => Reader.repeatUpTo test (step' x.1) n x.2) id Nat.le_refl some_left
    fun less enough => .repeatUpTo each ends goes less enough a
  fills _ := ⟨[], nofun, fun _ next => .inr next, fun x j t _ next =>
    ⟨x.2, j, Carries.repeatUpTo_stop (ends t next).1⟩⟩

end Steps

section Items

variable {item : Reader α} {item' : ι → Reader γ} (some_left : ∀ rest, pre rest → rest ≠ [])

include some_left in
theorem Mends.many
    (each : Repairs room (fun rest => pre rest ∧ test (headOf rest) = true) pre True begins near item
      item')
    (ends : ∀ u, may u → test u = false ∧ near u) (goes : ∀ u, begins u → test u = true ∧ near u) :
    Mends room pre pre False (OneOf begins may) may (Reader.many test item)
      fun x => Reader.many test (item' x) := by
  have step : ∀ items : List α,
      Repairs room (fun rest => pre rest ∧ test (headOf rest) = true) pre True begins near
        (do return (← item) :: items)
        fun x : ι × List γ => do return (← item' x.1) :: x.2 := by
    intro items
    have one := each.reindex (fun x : ι × List γ => x.1) fun _ => rfl
    have two : ∀ a : α, Mends room pre pre False near near (Pure.pure (a :: items))
        fun x : (ι × List γ) × γ => Pure.pure (x.2 :: x.1.2) := fun _ => .pure
    exact one.compose (fun a => (two a).toRepairs) (fun _ => .pure) (.inl (Nat.le_refl _))
      (fun _ next => next) (.inr fun _ next => next) (.inl True.intro) .inl
  have loop : Mends room pre pre False (OneOf begins may) may
      (Reader.repeatWhile test (fun items => do return (← item) :: items) [])
      fun x : ι => Reader.repeatWhile test (fun items => do return (← item' x) :: items) [] :=
    (Mends.repeatWhile (fun x items => do return (← item' x) :: items) step ends goes some_left
      []).reindex (fun x => (x, [])) fun _ => rfl
  exact loop.yield (fun _ => .pure) (.inr fun _ next => .inr next)

include some_left in
theorem Mends.separated [Nonempty α] (each : Mends room pre pre True begins near item item')
    (steps : ∀ t behind, pre (t :: behind) → t.isSymbol .comma = true → pre behind)
    (ends : ∀ u, may u → u.isSymbol .comma = false ∧ near u) :
    Mends room pre pre True begins may (Reader.separated item) fun x => Reader.separated (item' x) := by
  have comma : KindTest (·.isSymbol .comma) := .symbol .comma
  have another : Repairs room (fun rest => pre rest ∧ (headOf rest).isSymbol .comma = true) pre True
      Never near (do let _ ← Reader.take; item) (fun x => do let _ ← Reader.take; item' x) := by
    refine .take_bind ?_ comma.goes (Nat.le_succ room) fun _ _ => each.loose
    rintro rest ⟨here, tested⟩
    obtain ⟨behind, split⟩ := cons_of_headOf (comma.goes _ tested)
    exact ⟨headOf rest, behind, split, tested, steps _ _ (split ▸ here) tested⟩
  have others := (Mends.many some_left another ends fun _ => False.elim).reindex
    (fun x : ι × γ => x.1) fun _ => rfl
  have behind : ∀ u, OneOf Never may u → near u := fun u next =>
    next.elim False.elim fun next => (ends u next).2
  exact each.bind (fun _ => others.yield (fun _ => .pure) (.inr fun _ next => .inr next)) behind
    (.inr fun u next => (ends u next).2) (.inl True.intro) .inl

theorem Mends.unless {a : α} {b : γ} (each : Mends room pre pre True begins near item item')
    (ends : ∀ u, test u = true → near u) (goes : ∀ u, begins u → test u = false) :
    Mends room pre pre False (OneOf begins (test · = true)) (test · = true)
      (do if test (← Reader.current) then return a else item)
      (fun x => do if test (← Reader.current) then return b else item' x) := by
  refine Mends.current_bind (fun t => ?_) fun _ => ?_
  · cases tested : test t with
    | true =>
      rw [if_pos rfl]
      refine (Repairs.look ?_ (fun _ => False.elim) (.inr fun u next x => ?_)).anyhow
      · simp only [tested, if_true]
        exact Repairs.pure.strengthen fun _ here => here.1
      · simp only [tested, next]
    | false =>
      rw [if_neg (by decide)]
      have item := (each.widen (fun _ begin => begin) ends).toRepairs.strengthen
        fun rest (here : pre rest ∧ headOf rest = t) => here.1
      refine (Repairs.widen (.look ?_ (fun u begin x => ?_) (.inl True.intro))
        (fun _ begin => .inl begin) fun _ next => next).perhaps
      · simp only [tested, Bool.false_eq_true, if_false]
        exact item
      · simp only [tested, goes u begin]
  · refine ⟨[], nofun, fun _ next => .inr next, fun x j t other next => ⟨b, j, ?_⟩⟩
    change (if test t then Pure.pure b else item' x : Reader γ) _ = _
    rw [if_pos next]
    rfl

include some_left in
theorem Mends.separatedBefore [Nonempty α] (closing : Symbol)
    (each : Mends room pre pre True begins near item item')
    (steps : ∀ t behind, pre (t :: behind) → t.isSymbol .comma = true → pre behind)
    (ends : ∀ u, u.isSymbol closing = true → u.isSymbol .comma = false ∧ near u)
    (goes : ∀ u, begins u → u.isSymbol closing = false) :
    Mends room pre pre False (OneOf begins (·.isSymbol closing = true)) (·.isSymbol closing = true)
      (Reader.separatedBefore closing item) fun x => Reader.separatedBefore closing (item' x) :=
  (Mends.separated some_left each steps ends).unless (fun _ next => next) goes

theorem Mends.optionalBefore [Nonempty α] (closing : Symbol)
    (each : Mends room pre pre True begins near item item')
    (ends : ∀ u, u.isSymbol closing = true → near u)
    (goes : ∀ u, begins u → u.isSymbol closing = false) :
    Mends room pre pre False (OneOf begins (·.isSymbol closing = true)) (·.isSymbol closing = true)
      (Reader.optionalBefore closing item) fun x => Reader.optionalBefore closing (item' x) := by
  have some_item : Mends room pre pre True begins near (do return some (← item))
      (fun x => do return some (← item' x)) := each.map (.inl True.intro)
  exact some_item.unless ends goes

end Items

end Repetitions

end Reader

end LoxMachine
