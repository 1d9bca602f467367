import LoxMachine.Proofs.Scope.Settled
import LoxMachine.Proofs.Scope.Rejected
import LoxMachine.Proofs.Machine.Operations

namespace LoxMachine

namespace Static

structure Level.Plain (level : Level) : Prop where
  receiver : level.origin ≠ .receiver
  heritage : level.origin ≠ .heritage
  unnamed : ∀ name, name = "this" ∨ name = "super" → level.table.contains name = false

/-- Levels that come from others as statements are passed: names are added, and blocks and functions
are begun. -/
inductive Deepens (base : List Level) : List Level → Prop
  | refl : Deepens base base
  | stage {levels : List Level} (deepens : Deepens base levels) (name : Token) (s : Stage)
      (ordinary : name.Ordinary) : Deepens base (stage levels name.lexeme s)
  | push {levels : List Level} (deepens : Deepens base levels) (level : Level)
      (plain : level.Plain) : Deepens base (level :: levels)

inductive Inside (origin : Origin) (outer : List Level) : Nat → List Level → Prop
  | body {level : Level} (opened : level.origin = origin) (plain : level.Plain) :
      Inside origin outer 0 (level :: outer)
  | deeper {k : Nat} {level : Level} {levels : List Level} (plain : level.Plain)
      (inside : Inside origin outer k levels) : Inside origin outer (k + 1) (level :: levels)

variable {base levels outer : List Level} {origin : Origin} {k : Nat}

theorem Level.Plain.stage {level : Level} (plain : level.Plain) {name : Token} (s : Stage)
    (ordinary : name.Ordinary) :
    Level.Plain { level with table := level.table.put name.lexeme s } := by
  refine ⟨plain.receiver, plain.heritage, fun query kept => ?_⟩
  rw [Table.contains_put, plain.unnamed query kept, Bool.or_false, beq_eq_false_iff_ne]
  rintro rfl
  exact kept.elim ordinary.1 ordinary.2

theorem plain_block (id : NodeId) (names : List String) : Level.Plain ⟨.block id names, []⟩ :=
  ⟨fun absent => (nomatch absent), fun absent => (nomatch absent), fun _ _ => rfl⟩

theorem plain_function (id : NodeId) (names : List String) :
    Level.Plain ⟨.function id names, []⟩ :=
  ⟨fun absent => (nomatch absent), fun absent => (nomatch absent), fun _ _ => rfl⟩

theorem Deepens.trans {further : List Level} (first : Deepens base levels)
    (second : Deepens levels further) : Deepens base further := by
  induction second with
  | refl => exact first
  | stage _ name s ordinary ih => exact ih.stage name s ordinary
  | push _ level plain ih => exact ih.push level plain

theorem Deepens.add (deepens : Deepens base levels) {name : Token} (ordinary : name.Ordinary) :
    Deepens base (add levels name) :=
  (deepens.stage name .declared ordinary).stage name .defined ordinary

theorem Deepens.addAll (deepens : Deepens base levels) {names : List Token}
    (ordinary : ∀ name ∈ names, name.Ordinary) : Deepens base (addAll levels names) := by
  induction names generalizing levels with
  | nil => exact deepens
  | cons name rest ih =>
    obtain ⟨first, others⟩ := List.forall_mem_cons.mp ordinary
    exact ih (deepens.add first) others

theorem Inside.stage (inside : Inside origin outer k levels) {name : Token} (s : Stage)
    (ordinary : name.Ordinary) : Inside origin outer k (stage levels name.lexeme s) := by
  cases inside with
  | body opened plain => exact .body opened (plain.stage s ordinary)
  | deeper plain inside => exact .deeper (plain.stage s ordinary) inside

theorem inside_of_deepens {level : Level} (plain : level.Plain)
    (deepens : Deepens (level :: outer) levels) :
    ∃ k, Inside level.origin outer k levels := by
  induction deepens with
  | refl => exact ⟨0, .body rfl plain⟩
  | stage _ name s ordinary ih =>
    obtain ⟨k, inside⟩ := ih
    exact ⟨k, inside.stage s ordinary⟩
  | push _ level plain ih =>
    obtain ⟨k, inside⟩ := ih
    exact ⟨k + 1, .deeper plain inside⟩

theorem locate_inside (inside : Inside origin outer k levels) {name : String}
    (kept : name = "this" ∨ name = "super") :
    locate levels name = (locate outer name).map (· + (k + 1)) := by
  induction inside with
  | body _ plain =>
    rw [locate, List.findIdx?_cons, plain.unnamed name kept]
    rfl
  | @deeper k _ levels plain _ ih =>
    rw [locate] at ih ⊢
    rw [List.findIdx?_cons, plain.unnamed name kept, if_neg Bool.false_ne_true, ih, Option.map_map]
    rfl

/-- The scopes of a place inside a function: as many steps outward as there are levels between, a
scope that was opened for the function, and no nearer one is that of a receiver or a superclass. -/
theorem mirrors_inside {α : Type} {shape : List Origin} {f : Forest α} {pending : Option String}
    {e : ScopeId} (inside : Inside origin outer k levels)
    (mirrors : Mirrors shape f pending e levels) :
    (∃ target around, f.outward k e = some target ∧ shape[target]? = some origin ∧
      f.enclosing target = some around ∧ Mirrors shape f none around outer) ∧
      ∀ j ≤ k, ∀ nearer, f.outward j e = some nearer →
        shape[nearer]? ≠ some .receiver ∧ shape[nearer]? ≠ some .heritage := by
  induction inside generalizing pending e with
  | body opened plain =>
    obtain ⟨mirrored, around, enclosing, rest⟩ := mirrors
    refine ⟨⟨e, around, rfl, opened ▸ mirrored.opened, enclosing, rest⟩, ?_⟩
    intro j within nearer found
    cases Nat.le_zero.mp within
    cases found
    rw [mirrored.opened]
    exact ⟨fun same => plain.receiver (Option.some.inj same),
      fun same => plain.heritage (Option.some.inj same)⟩
  | deeper plain _ ih =>
    obtain ⟨mirrored, around, enclosing, rest⟩ := mirrors
    obtain ⟨⟨target, further, found, opened, outside⟩, free⟩ := ih rest
    refine ⟨⟨target, further, (Forest.outward_succ enclosing _).trans found, opened, outside⟩, ?_⟩
    intro j within nearer reached
    cases j with
    | zero =>
      cases reached
      rw [mirrored.opened]
      exact ⟨fun same => plain.receiver (Option.some.inj same),
        fun same => plain.heritage (Option.some.inj same)⟩
    | succ j =>
      rw [Forest.outward_succ enclosing] at reached
      exact free j (Nat.le_of_succ_le_succ within) nearer reached

end Static

open Static

variable {G : Occurrence → Prop} {context : Context} {levels : List Level}

theorem fits_of_mem {body : List Stmt} {s : Stmt} (fit : StmtsFit G context levels body)
    (member : s ∈ body) : ∃ later, s.Fits G context later ∧ Deepens levels later := by
  induction body generalizing levels with
  | nil => cases member
  | cons first rest ih =>
    rcases List.mem_cons.mp member with rfl | later
    · exact ⟨levels, fit.1, .refl⟩
    · obtain ⟨after, fits, deepens⟩ := ih fit.2 later
      exact ⟨after, fits, (Deepens.refl.addAll (ordinary_of_fits fit.1)).trans deepens⟩

theorem body_fits {decl : FunctionDecl} (fits : decl.Fits G context levels) :
    ∃ level, level.origin = decl.origin ∧ level.Plain ∧
      ∃ later, StmtsFit G context later decl.body ∧ Deepens (level :: levels) later := by
  obtain ⟨id, name, params, body⟩ := decl
  obtain ⟨_, params_fit, fit⟩ := fits
  exact ⟨_, rfl, plain_function id _, _, fit,
    Deepens.refl.addAll fun param member => (params_fit param member).1⟩

/-- A statement of a text that fits also fits, and unless a class is around it, at levels that come
from those of the text. -/
theorem fits_of_stands {program : List Stmt} {around : List Enclosure} {s : Stmt}
    (fit : StmtsFit G context levels program) (stands : Stands program around s) :
    ∃ context later, s.Fits G context later ∧
      (innermostClass around = none → Deepens levels later) := by
  induction stands with
  | top member =>
    obtain ⟨later, fits, deepens⟩ := fits_of_mem fit member
    exact ⟨context, later, fits, fun _ => deepens⟩
  | @block around id body s _ member ih =>
    obtain ⟨context, outer, fits, deepens⟩ := ih
    obtain ⟨later, inner, deeper⟩ := fits_of_mem fits.2 member
    exact ⟨context, later, inner,
      fun outside => ((deepens outside).push _ (plain_block id _)).trans deeper⟩
  | @yes _ _ _ _ no _ ih =>
    obtain ⟨context, outer, fits, deepens⟩ := ih
    cases no with
    | none => exact ⟨context, outer, fits.2.1, deepens⟩
    | some no => exact ⟨context, outer, fits.2.1.1, deepens⟩
  | no _ ih =>
    obtain ⟨context, outer, fits, deepens⟩ := ih
    exact ⟨context, outer, fits.2.2.1, deepens⟩
  | loop _ ih =>
    obtain ⟨context, outer, fits, deepens⟩ := ih
    exact ⟨context, outer, fits.2.1, deepens⟩
  | function _ member ih =>
    obtain ⟨context, outer, fits, deepens⟩ := ih
    obtain ⟨level, _, plain, inner, fit, deeper⟩ := body_fits fits.2.2
    obtain ⟨later, fits', last⟩ := fits_of_mem fit member
    exact ⟨_, later, fits', fun outside =>
      (((deepens outside).add fits.2.1.ordinary).push level plain).trans (deeper.trans last)⟩
  | method _ which member ih =>
    obtain ⟨context, outer, fits, _⟩ := ih
    obtain ⟨_, _, _, inner, fit, _⟩ := body_fits (Machine.fits_of_mem_methods fits.2.2.2 which)
    obtain ⟨later, fits', _⟩ := fits_of_mem fit member
    exact ⟨_, later, fits', fun inside => nomatch inside⟩

theorem fits_of_exprs {s : Stmt} {e : Expr} (fits : s.Fits G context levels) (own : e ∈ s.exprs) :
    ∃ p, e.Fits G p ∧ Deepens levels p.levels := by
  cases s with
  | expression | print =>
    cases List.mem_singleton.mp own
    exact ⟨_, fits, .refl⟩
  | branch _ _ _ no =>
    cases List.mem_singleton.mp own
    cases no <;> exact ⟨_, fits.1, .refl⟩
  | loop =>
    cases List.mem_singleton.mp own
    exact ⟨_, fits.1, .refl⟩
  | var _ name value =>
    cases value with
    | none => cases own
    | some e =>
      cases List.mem_singleton.mp own
      exact ⟨_, fits.2.2, Deepens.refl.stage name .declared fits.2.1.ordinary⟩
  | returns _ _ value =>
    cases value with
    | none => cases own
    | some e =>
      cases List.mem_singleton.mp own
      exact ⟨_, fits.2.2, .refl⟩
  | block | function | classDecl => cases own

theorem fits_of_mem_exprs {p : Site} {es : List Expr} (fit : ExprsFit G p es) :
    ∀ e ∈ es, e.Fits G p := by
  induction es with
  | nil => exact fun _ absent => nomatch absent
  | cons first rest ih => exact List.forall_mem_cons.mpr ⟨fit.1, ih fit.2⟩

theorem fits_of_contains {p : Site} {e inner : Expr} (contains : e.Contains inner)
    (fits : e.Fits G p) : inner.Fits G p := by
  induction contains with
  | itself => exact fits
  | @inside e part inner member _ ih =>
    apply ih
    cases e with
    | literal | read | this | super => cases member
    | assign =>
      cases List.mem_singleton.mp member
      exact fits.1
    | unary | get =>
      cases List.mem_singleton.mp member
      exact fits.2
    | grouping =>
      cases List.mem_singleton.mp member
      exact fits
    | binary | logical =>
      simp only [Expr.parts, List.mem_cons, List.not_mem_nil, or_false] at member
      rcases member with rfl | rfl
      · exact fits.2.1
      · exact fits.2.2
    | call =>
      rcases List.mem_cons.mp member with rfl | later
      · exact fits.2.1
      · exact fits_of_mem_exprs fits.2.2 _ later
    | set =>
      simp only [Expr.parts, List.mem_cons, List.not_mem_nil, or_false] at member
      rcases member with rfl | rfl
      · exact fits.2.2
      · exact fits.2.1

/-- An expression in the body of a method, with no other class around it, fits levels inside the
method, around which there are those of the class. -/
theorem inside_of_evaluates {program : List Stmt} {around inner : List Enclosure} {id : NodeId}
    {name : Token} {superclass : Option Variable} {methods : List FunctionDecl}
    {decl : FunctionDecl} {e : Expr} (fit : StmtsFit G context levels program)
    (stands : Stands program around (.classDecl id name superclass methods))
    (which : decl ∈ methods) (outside : innermostClass inner = none)
    (evaluates : Evaluates decl.body inner e) :
    ∃ p outer k, e.Fits G p ∧
      Inside decl.origin (receiverLevel :: classLevels outer superclass) k p.levels := by
  obtain ⟨context, outer, class_fits, _⟩ := fits_of_stands fit stands
  obtain ⟨level, opened, plain, later, body_fit, deepens⟩ :=
    body_fits (Machine.fits_of_mem_methods class_fits.2.2.2 which)
  obtain ⟨s, inside, top, own, contains⟩ := evaluates
  obtain ⟨context, last, fits, deeper⟩ := fits_of_stands body_fit inside
  obtain ⟨p, top_fits, deepest⟩ := fits_of_exprs fits own
  obtain ⟨k, place⟩ := inside_of_deepens plain ((deepens.trans (deeper outside)).trans deepest)
  exact ⟨p, _, k, fits_of_contains contains top_fits, opened ▸ place⟩

theorem stands_of_method {program : List Stmt} {around inner : List Enclosure} {id : NodeId}
    {name : Token} {superclass : Option Variable} {methods : List FunctionDecl}
    {decl : FunctionDecl} {s : Stmt}
    (stands : Stands program around (.classDecl id name superclass methods))
    (which : decl ∈ methods) (inside : Stands decl.body inner s) :
    Stands program (inner ++ .method decl.name :: .classBody superclass :: around) s := by
  induction inside with
  | top member => exact .method stands which member
  | block _ member ih => exact .block ih member
  | yes _ ih => exact .yes ih
  | no _ ih => exact .no ih
  | loop _ ih => exact .loop ih
  | function _ member ih => exact .function ih member
  | method _ other member ih => exact .method ih other member

/-- A class whose methods use `super` has a superclass, if its program is accepted. -/
theorem superclass_of_evaluates {program : List Stmt} {ds : Distances}
    {around inner : List Enclosure} {id use : NodeId} {name keyword method : Token}
    {superclass : Option Variable} {methods : List FunctionDecl} {decl : FunctionDecl}
    (accepted : distancesOf program = .ok ds)
    (stands : Stands program around (.classDecl id name superclass methods))
    (which : decl ∈ methods) (outside : innermostClass inner = none)
    (evaluates : Evaluates decl.body inner (.super use keyword method)) :
    ∃ base, superclass = some base := by
  cases superclass with
  | some base => exact ⟨base, rfl⟩
  | none =>
    obtain ⟨s, inside, contained⟩ := evaluates
    refine absurd (Violates.superWithoutSuperclass
      ⟨s, stands_of_method stands which inside, contained⟩ ?_) (not_violates_of_accepted accepted)
    unfold innermostClass at outside ⊢
    rw [List.find?_append, outside]
    rfl

end LoxMachine
