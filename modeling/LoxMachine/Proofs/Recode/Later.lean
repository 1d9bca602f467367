import LoxMachine.Proofs.Grammar.Joined
import LoxMachine.Proofs.Recode.Shown
import LoxMachine.Proofs.Recode.Static

namespace LoxMachine

open Static

theorem lexeme_of_changed {here : Prop} [Decidable here] {change : Token → Token}
    (lexeme : ∀ t, (change t).lexeme = t.lexeme) (t : Token) :
    (if here then change t else t).lexeme = t.lexeme := by
  split
  · exact lexeme t
  · rfl

/-- The tokens of the nodes from a number on are changed, but not their words. -/
def Recoding.changedFrom (lo : Nat) (change : Token → Token)
    (lexeme : ∀ t, (change t).lexeme = t.lexeme) (kind : ∀ t, (change t).kind = t.kind) : Recoding where
  mark id t := if lo ≤ id then change t else t
  use id t := if lo ≤ id then change t else t
  declare id t := if lo ≤ id then change t else t
  bound _ name := name
  mark_lexeme _ t := lexeme_of_changed lexeme t
  mark_kind _ t := by
    split
    · exact kind t
    · rfl
  bound_global _ := rfl
  bound_this _ := rfl
  bound_super _ := rfl
  injective _ _ _ _ _ same := same

section Changed

variable {lo : Nat} {change : Token → Token} {lexeme : ∀ t, (change t).lexeme = t.lexeme}
  {kind : ∀ t, (change t).kind = t.kind} {G : Occurrence → Prop}

theorem changedFrom_respects : (Recoding.changedFrom lo change lexeme kind).Respects G where
  near i name levels _ d level _ _ := by
    change (level.table.recode id id).get? (if lo ≤ i then change name else name).lexeme = _
    rw [lexeme_of_changed lexeme, Table.get?_recode_id, Option.map_id, id]
  found _ name _ _ _ _ _ _ := lexeme_of_changed lexeme name
  missing _ name _ _ _ := lexeme_of_changed lexeme name
  declared _ name _ _ := lexeme_of_changed lexeme name
  parameter _ name _ _ := lexeme_of_changed lexeme name
  callable _ _ _ := rfl

theorem changedFrom_still {o : Occurrence} (older : ∀ id, o.id? = some id → id < lo) :
    (Recoding.changedFrom lo change lexeme kind : Respelling).AgreeOn .still o := by
  match o with
  | .use id _ _ | .variable id _ _ | .parameter id _ _ | .mark id _ =>
    exact if_neg (Nat.not_le_of_lt (older id rfl))
  | .callable _ _ | .scope _ => exact True.intro

theorem changedFrom_changed {o : Occurrence} (here : ∀ id, o.id? = some id → lo ≤ id) :
    (Recoding.changedFrom lo change lexeme kind : Respelling).AgreeOn
      ⟨fun _ => change, fun _ => change, fun _ => change⟩ o := by
  match o with
  | .use id _ _ | .variable id _ _ | .parameter id _ _ | .mark id _ => exact if_pos (here id rfl)
  | .callable _ _ | .scope _ => exact True.intro

end Changed

/-- The tokens of the nodes from a number on so many lines further down. -/
def Recoding.laterFrom (lo lines : Nat) : Recoding where
  mark id t := if lo ≤ id then t.later lines else t
  use id t := if lo ≤ id then t.later lines else t
  declare id t := if lo ≤ id then t.later lines else t
  bound _ name := name
  mark_lexeme _ t := by split <;> rfl
  mark_kind _ t := by split <;> rfl
  bound_global _ := rfl
  bound_this _ := rfl
  bound_super _ := rfl
  injective _ _ _ _ _ same := same

section Later

variable {lo lines : Nat} {G : Occurrence → Prop}

theorem laterFrom_eq : Recoding.laterFrom lo lines =
    .changedFrom lo (Token.later lines) (fun _ => rfl) fun _ => rfl := rfl

theorem laterFrom_respects : (Recoding.laterFrom lo lines).Respects G := by
  rw [laterFrom_eq]
  exact changedFrom_respects

theorem laterFrom_still {o : Occurrence} (older : ∀ id, o.id? = some id → id < lo) :
    (Recoding.laterFrom lo lines : Respelling).AgreeOn .still o := by
  rw [laterFrom_eq]
  exact changedFrom_still older

theorem laterFrom_later {o : Occurrence} (here : ∀ id, o.id? = some id → lo ≤ id) :
    (Recoding.laterFrom lo lines : Respelling).AgreeOn (.later lines) o := by
  rw [laterFrom_eq]
  exact changedFrom_changed here

end Later

structure Respelling.KeepsWords (ϕ : Respelling) : Prop where
  use : ∀ i t, (ϕ.use i t).lexeme = t.lexeme
  mark : ∀ i t, (ϕ.mark i t).lexeme = t.lexeme

theorem changedFrom_keepsWords {lo : Nat} {change : Token → Token}
    {lexeme : ∀ t, (change t).lexeme = t.lexeme} {kind : ∀ t, (change t).kind = t.kind} :
    (Recoding.changedFrom lo change lexeme kind : Respelling).KeepsWords :=
  ⟨fun _ => lexeme_of_changed lexeme, fun _ => lexeme_of_changed lexeme⟩

theorem laterFrom_keepsWords (lo lines : Nat) :
    (Recoding.laterFrom lo lines : Respelling).KeepsWords := by
  rw [laterFrom_eq]
  exact changedFrom_keepsWords

variable {ϕ : Respelling}

mutual

theorem Expr.form_recode (keeps : ϕ.KeepsWords) (e : Expr) : (e.recode ϕ).form = e.form := by
  match e with
  | .literal _ _ | .this _ _ => rfl
  | .read use => exact keeps.use _ _
  | .assign _ _ inner | .unary _ _ inner | .grouping _ inner | .get _ inner _ =>
    simp only [Expr.recode, Expr.form, inner.form_recode keeps, keeps.use, keeps.mark]
  | .binary _ left _ right | .logical _ left _ right | .set _ left _ right =>
    simp only [Expr.recode, Expr.form, left.form_recode keeps, right.form_recode keeps, keeps.mark]
  | .call _ callee _ arguments =>
    simp only [Expr.recode, Expr.form, callee.form_recode keeps, forms_recode keeps arguments]
  | .super _ _ method => simp only [Expr.recode, Expr.form, keeps.mark]

theorem forms_recode (keeps : ϕ.KeepsWords) (es : List Expr) :
    Expr.forms (exprsRecode ϕ es) = Expr.forms es := by
  match es with
  | [] => rfl
  | e :: rest => rw [exprsRecode, Expr.forms, Expr.forms, e.form_recode keeps, forms_recode keeps rest]

end

theorem Complaint.Recoded.eq {c other : Complaint} (alike : c.Recoded ϕ other)
    (keeps : ϕ.KeepsWords) : other = c := by
  cases alike with
  | same => rfl
  | division e => rw [e.form_recode keeps]
  | callee e text => rw [e.form_recode keeps]

theorem Failure.Recoded.eq_of_kept {G : Occurrence → Prop} {f other : Failure} {ϕ : Recoding}
    (alike : f.Recoded ϕ G other)
    (kept : ∀ o, G o → (ϕ : Respelling).AgreeOn .still o) (keeps : (ϕ : Respelling).KeepsWords) :
    other = f := by
  cases alike with
  | @use id name levels known complaint =>
    have same : ϕ.use id name = name := kept _ known
    rw [same]
  | @mark id t complaint _ known alike =>
    have same : ϕ.mark id t = t := kept _ known
    cases alike.eq keeps
    rw [same]
  | host | overflow | callDepth => rfl

/-- A state that holds only what is kept is at the same as its recoding. -/
theorem Machine.Fits.control_eq {G : Occurrence → Prop} {shape : List Origin} {ϕ : Recoding}
    {m other : Machine} (fits : m.Fits G shape) (kept : ∀ o, G o → (ϕ : Respelling).AgreeOn .still o)
    (keeps : (ϕ : Respelling).KeepsWords) (alike : m.control.Recoded ϕ G other.control) :
    other.control = m.control := by
  cases fits with
  | evaluate p control _ _ fits =>
    rw [control] at alike ⊢
    generalize other.control = reached at alike ⊢
    cases alike
    rw [fits.recode_congr kept, Expr.recode_still]
  | execute context levels control _ _ fits =>
    rw [control] at alike ⊢
    generalize other.control = reached at alike ⊢
    cases alike
    rw [fits.recode_congr kept, Stmt.recode_still]
  | value p control _ _ fits =>
    rw [control] at alike ⊢
    generalize other.control = reached at alike ⊢
    cases alike
    rw [fits.recode_eq kept]
  | done context levels control =>
    rw [control] at alike ⊢
    generalize other.control = reached at alike ⊢
    cases alike
    rfl
  | returning context levels control _ _ fits =>
    rw [control] at alike ⊢
    generalize other.control = reached at alike ⊢
    cases alike
    rw [fits.recode_eq kept]
  | failing demand control =>
    rw [control] at alike ⊢
    generalize other.control = reached at alike ⊢
    cases alike with
    | failing failure => rw [failure.eq_of_kept kept keeps]

end LoxMachine
