import LoxMachine.Proofs.Grammar.Cuts
import LoxMachine.Proofs.Grammar.Takes

namespace LoxMachine

namespace Reader

variable {ι κ α β γ δ : Type}

def Open (tokens : List Token) : Prop := ∀ t ∈ tokens, t.isEnding = false

def Never (_ : Token) : Prop := False

def Passes (r : ι → Reader α) (tokens : List Token) (may : Token → Prop) : Prop :=
  ∀ x j t other, may t → ∃ a j', r x ⟨tokens ++ t :: other, j⟩ = .ok a ⟨t :: other, j'⟩

def Rejects (r : ι → Reader α) (tokens : List Token) : Prop :=
  ∀ x j other, ∃ e c, r x ⟨tokens ++ other, j⟩ = .error e c

def Fills (starts may : Token → Prop) (r : ι → Reader α) : Prop :=
  ∃ more, Open more ∧ (∀ t, may t → starts (headOf (more ++ [t]))) ∧ Passes r more may

/-- The readers have stopped in front of `t` behind the tokens that they took. -/
structure Stuck (starts may : Token → Prop) (r : ι → Reader α) (taken : List Token) (t : Token)
    (e : SyntaxError) : Prop where
  points : ∃ expected, e = .unexpected expected t
  mended : ∃ next more, Open (next :: more) ∧ (taken = [] → starts next) ∧
    Passes r (taken ++ next :: more) may
  hopeless : t.isEnding = false → Rejects r (taken ++ [t])

theorem Open.append {tokens more : List Token} (one : Open tokens) (two : Open more) :
    Open (tokens ++ more) :=
  List.forall_mem_append.mpr ⟨one, two⟩

theorem Open.single {t : Token} (open_here : t.isEnding = false) : Open [t] :=
  List.forall_mem_singleton.mpr open_here

theorem headOf_append_cons (tokens : List Token) (t : Token) (other : List Token) :
    headOf (tokens ++ t :: other) = headOf (tokens ++ [t]) := by
  cases tokens <;> rfl

theorem cons_of_headOf {rest : List Token} (open_here : (headOf rest).isEnding = false) :
    ∃ behind, rest = headOf rest :: behind :=
  Carries.cons_of_current (c := ⟨rest, 0⟩) open_here

theorem exists_tail (tokens : List Token) (t : Token) (other : List Token) :
    ∃ rest, tokens ++ t :: other = headOf (tokens ++ [t]) :: rest := by
  cases tokens with
  | nil => exact ⟨other, rfl⟩
  | cons first more => exact ⟨more ++ t :: other, rfl⟩

theorem headOf_taken {c c' : Cursor} {taken : List Token} (split : c.rest = taken ++ c'.rest)
    (some_taken : taken ≠ []) (t : Token) : headOf (taken ++ [t]) = c.current := by
  cases taken with
  | nil => exact absurd rfl some_taken
  | cons first more => exact (congrArg headOf split).symm

theorem current_of_none {c c' : Cursor} {taken : List Token} (split : c.rest = taken ++ c'.rest)
    (none : taken = []) : c'.current = c.current := by
  subst none
  exact (congrArg headOf split).symm

namespace Passes

variable {r : ι → Reader α} {tokens more : List Token} {may near : Token → Prop}

theorem mono (passes : Passes r tokens near) (narrower : ∀ t, may t → near t) :
    Passes r tokens may :=
  fun x j t other next => passes x j t other (narrower t next)

theorem reindex {r' : κ → Reader α} (passes : Passes r tokens may) (g : κ → ι)
    (same : ∀ y, r' y = r (g y)) : Passes r' tokens may := by
  intro y j t other next
  rw [same]
  exact passes (g y) j t other next

theorem bind {f : ι → α → Reader β} (one : Passes r tokens near)
    (two : Passes (fun x : ι × α => f x.1 x.2) more may)
    (behind : ∀ t, may t → near (headOf (more ++ [t]))) :
    Passes (fun x => r x >>= f x) (tokens ++ more) may := by
  intro x j t other next
  obtain ⟨rest, split⟩ := exists_tail more t other
  obtain ⟨a, i, before⟩ := one x j _ rest (behind t next)
  obtain ⟨b, i', after⟩ := two (x, a) i t other next
  refine ⟨b, i', ?_⟩
  rw [split] at after
  rw [List.append_assoc, split]
  exact (bind_of_ok before).trans after

theorem look {f : ι → Token → Reader α} {t : Token} (passes : Passes (f · t) tokens may)
    (same : ∀ u, may u → ∀ x, f x (headOf (tokens ++ [u])) = f x t) :
    Passes (fun x => Reader.current >>= f x) tokens may := by
  intro x j u other next
  obtain ⟨a, i, read⟩ := passes x j u other next
  refine ⟨a, i, ?_⟩
  change f x (headOf (tokens ++ u :: other)) _ = _
  rw [headOf_append_cons, same u next]
  exact read

theorem take_bind {f : ι → Token → Reader α} {t : Token} (open_here : t.isEnding = false)
    (passes : Passes (f · t) tokens may) :
    Passes (fun x => Reader.take >>= f x) (t :: tokens) may := by
  intro x j u other next
  obtain ⟨a, i, read⟩ := passes x j u other next
  exact ⟨a, i, (bind_of_ok (Carries.take_cons open_here)).trans read⟩

theorem take {t : Token} (open_here : t.isEnding = false) :
    Passes (fun _ : ι => Reader.take) [t] may :=
  fun _ j _ _ _ => ⟨t, j, Carries.take_cons open_here⟩

end Passes

namespace Rejects

variable {r : ι → Reader α} {tokens more : List Token} {near : Token → Prop}

theorem reindex {r' : κ → Reader α} (rejects : Rejects r tokens) (g : κ → ι)
    (same : ∀ y, r' y = r (g y)) : Rejects r' tokens := by
  intro y j other
  rw [same]
  exact rejects (g y) j other

theorem bind {f : ι → α → Reader β} (rejects : Rejects r tokens) :
    Rejects (fun x => r x >>= f x) tokens := by
  intro x j other
  obtain ⟨e, c, read⟩ := rejects x j other
  exact ⟨e, c, bind_of_error read⟩

theorem behind {f : ι → α → Reader β} {t : Token} (one : Passes r tokens near)
    (two : Rejects (fun x : ι × α => f x.1 x.2) (more ++ [t])) (next : near (headOf (more ++ [t]))) :
    Rejects (fun x => r x >>= f x) (tokens ++ (more ++ [t])) := by
  intro x j other
  obtain ⟨rest, split⟩ := exists_tail more t other
  obtain ⟨a, i, before⟩ := one x j _ rest next
  obtain ⟨e, c, after⟩ := two (x, a) i other
  have tail : more ++ [t] ++ other = more ++ t :: other := List.append_cons more t other |>.symm
  refine ⟨e, c, ?_⟩
  rw [tail, split] at after
  rw [List.append_assoc, tail, split]
  exact (bind_of_ok before).trans after

theorem look {f : ι → Token → Reader α} {t : Token} (rejects : Rejects (f · t) tokens)
    (some_tokens : tokens ≠ []) (same : ∀ x, f x (headOf tokens) = f x t) :
    Rejects (fun x => Reader.current >>= f x) tokens := by
  intro x j other
  obtain ⟨e, c, read⟩ := rejects x j other
  refine ⟨e, c, ?_⟩
  obtain ⟨first, rest, rfl⟩ := List.exists_cons_of_ne_nil some_tokens
  change f x first _ = _
  rw [show f x first = f x t from same x]
  exact read

theorem take_bind {f : ι → Token → Reader α} {t : Token} (open_here : t.isEnding = false)
    (rejects : Rejects (f · t) tokens) : Rejects (fun x => Reader.take >>= f x) (t :: tokens) := by
  intro x j other
  obtain ⟨e, c, read⟩ := rejects x j other
  exact ⟨e, c, (bind_of_ok (Carries.take_cons open_here)).trans read⟩

end Rejects

namespace Stuck

variable {starts begins may near : Token → Prop} {r : ι → Reader α} {taken : List Token} {t : Token}
  {e : SyntaxError}

theorem widen (stuck : Stuck begins near r taken t e) (wider : ∀ u, begins u → starts u)
    (narrower : ∀ u, may u → near u) : Stuck starts may r taken t e where
  points := stuck.points
  mended := by
    obtain ⟨next, more, opens, first, passes⟩ := stuck.mended
    exact ⟨next, more, opens, fun none => wider _ (first none), passes.mono narrower⟩
  hopeless := stuck.hopeless

theorem reindex {r' : κ → Reader α} (stuck : Stuck starts may r taken t e) (g : κ → ι)
    (same : ∀ y, r' y = r (g y)) : Stuck starts may r' taken t e where
  points := stuck.points
  mended := by
    obtain ⟨next, more, opens, first, passes⟩ := stuck.mended
    exact ⟨next, more, opens, first, passes.reindex g same⟩
  hopeless ended := (stuck.hopeless ended).reindex g same

theorem bind {f : ι → α → Reader β} (stuck : Stuck starts near r taken t e)
    (fills : Fills begins may fun x : ι × α => f x.1 x.2) (behind : ∀ u, begins u → near u) :
    Stuck starts may (fun x => r x >>= f x) taken t e where
  points := stuck.points
  mended := by
    obtain ⟨next, more, opens, first, passes⟩ := stuck.mended
    obtain ⟨others, opens', first', passes'⟩ := fills
    refine ⟨next, more ++ others, opens.append opens', first, ?_⟩
    have both := passes.bind passes' fun u next => behind _ (first' u next)
    rwa [List.append_assoc] at both
  hopeless ended := (stuck.hopeless ended).bind

theorem behind {f : ι → α → Reader β} {before : List Token} {c c' : Cursor}
    (split : c.rest = taken ++ c'.rest)
    (passes : Passes r before fun u => u = c.current ∨ near u)
    (stuck : Stuck begins may (fun x : ι × α => f x.1 x.2) taken c'.current e)
    (narrower : ∀ u, begins u → near u) (wider : before ≠ [] ∨ ∀ u, begins u → starts u) :
    Stuck starts may (fun x => r x >>= f x) (before ++ taken) c'.current e where
  points := stuck.points
  mended := by
    obtain ⟨next, more, opens, first, passes'⟩ := stuck.mended
    refine ⟨next, more, opens, fun none => ?_, ?_⟩
    · obtain ⟨none_before, none_taken⟩ := List.append_eq_nil_iff.mp none
      rcases wider with known | wider
      · exact absurd none_before known
      · exact wider _ (first none_taken)
    · rw [List.append_assoc]
      refine passes.bind passes' fun u _ => ?_
      by_cases none : taken = []
      · subst none
        exact .inr (narrower _ (first rfl))
      · left
        rw [List.append_assoc, List.cons_append, headOf_append_cons]
        exact headOf_taken split none next
  hopeless ended := by
    rw [List.append_assoc]
    refine .behind passes (stuck.hopeless ended) (.inl ?_)
    by_cases none : taken = []
    · have same := current_of_none split none
      subst none
      exact same
    · exact headOf_taken split none _

theorem look {f : ι → Token → Reader α} {u : Token} (stuck : Stuck starts may (f · u) taken t e)
    (here : headOf (taken ++ [t]) = u) (first : ∀ v, starts v → ∀ x, f x v = f x u) :
    Stuck starts may (fun x => Reader.current >>= f x) taken t e where
  points := stuck.points
  mended := by
    obtain ⟨next, more, opens, begins, passes⟩ := stuck.mended
    refine ⟨next, more, opens, begins, passes.look fun v _ x => ?_⟩
    rw [List.append_assoc, List.cons_append, headOf_append_cons]
    cases taken with
    | nil => exact first next (begins rfl) x
    | cons head rest => exact congrArg (f x) here
  hopeless ended := by
    refine (stuck.hopeless ended).look (List.append_ne_nil_of_right_ne_nil _ (List.cons_ne_nil _ _)) ?_
    exact fun x => congrArg (f x) here

theorem take_bind {f : ι → Token → Reader α} {u : Token} (open_here : u.isEnding = false)
    (stuck : Stuck begins may (f · u) taken t e) :
    Stuck starts may (fun x => Reader.take >>= f x) (u :: taken) t e where
  points := stuck.points
  mended := by
    obtain ⟨next, more, opens, _, passes⟩ := stuck.mended
    exact ⟨next, more, opens, fun none => absurd none (List.cons_ne_nil _ _),
      passes.take_bind open_here⟩
  hopeless ended := (stuck.hopeless ended).take_bind open_here

end Stuck

namespace Fills

variable {starts begins may near : Token → Prop} {r : ι → Reader α}

theorem widen (fills : Fills begins near r) (wider : ∀ u, begins u → starts u)
    (narrower : ∀ u, may u → near u) : Fills starts may r := by
  obtain ⟨more, opens, first, passes⟩ := fills
  exact ⟨more, opens, fun u next => wider _ (first u (narrower u next)), passes.mono narrower⟩

theorem reindex {r' : κ → Reader α} (fills : Fills starts may r) (g : κ → ι)
    (same : ∀ y, r' y = r (g y)) : Fills starts may r' := by
  obtain ⟨more, opens, first, passes⟩ := fills
  exact ⟨more, opens, first, passes.reindex g same⟩

theorem bind {f : ι → α → Reader β} (one : Fills starts near r)
    (two : Fills begins may fun x : ι × α => f x.1 x.2) (behind : ∀ u, begins u → near u) :
    Fills starts may fun x => r x >>= f x := by
  obtain ⟨more, opens, first, passes⟩ := one
  obtain ⟨others, opens', first', passes'⟩ := two
  refine ⟨more ++ others, opens.append opens', fun u next => ?_, ?_⟩
  · obtain ⟨rest, split⟩ := exists_tail others u []
    rw [List.append_assoc, split, headOf_append_cons]
    exact first _ (behind _ (first' u next))
  · exact passes.bind passes' fun u next => behind _ (first' u next)

theorem look {f : ι → Token → Reader α} {t : Token} (fills : Fills starts may (f · t))
    (first : ∀ u, starts u → ∀ x, f x u = f x t) :
    Fills starts may fun x => Reader.current >>= f x := by
  obtain ⟨more, opens, begins, passes⟩ := fills
  exact ⟨more, opens, begins, passes.look fun u next => first _ (begins u next)⟩

theorem pure {b : ι → α} : Fills may may fun x => (Pure.pure (b x) : Reader α) :=
  ⟨[], nofun, fun _ next => next, fun x j _ _ _ => ⟨b x, j, rfl⟩⟩

theorem single {t : Token} (open_here : t.isEnding = false) (first : starts t)
    (passes : Passes r [t] may) : Fills starts may r :=
  ⟨[t], .single open_here, fun _ _ => first, passes⟩

end Fills

end Reader

end LoxMachine
