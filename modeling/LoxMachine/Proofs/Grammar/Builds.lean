import LoxMachine.Grammar.Declaration
import LoxMachine.Proofs.Grammar.Ensures
import LoxMachine.Proofs.Program.Ranked

namespace LoxMachine

/-- What is known of a tree that uses up numbers from `lo` on and below `hi`. How its names are
spelled is known if `text` holds. -/
structure Growth (text : Prop) (lo hi : Nat) (ids : List NodeId) (ranked formed : Prop) : Prop where
  numbered : Numbered lo hi ids
  ranked : ranked
  formed : text → formed

namespace Growth

variable {text ranked ranked' formed formed' : Prop} {lo mid hi : Nat} {ids ids' : List NodeId}

theorem empty (below : lo ≤ hi) : Growth text lo hi [] True True :=
  ⟨.nil below, True.intro, fun _ => True.intro⟩

theorem leaf {id : NodeId} (known : text → formed) : Growth text id (id + 1) [id] True formed :=
  ⟨.single id, True.intro, known⟩

theorem append (one : Growth text lo mid ids ranked formed)
    (other : Growth text mid hi ids' ranked' formed') :
    Growth text lo hi (ids ++ ids') (ranked ∧ ranked') (formed ∧ formed') where
  numbered := one.numbered.append other.numbered
  ranked := ⟨one.ranked, other.ranked⟩
  formed known := ⟨one.formed known, other.formed known⟩

theorem node {id : NodeId} (parts : Growth text lo id ids ranked formed) :
    Growth text lo (id + 1) (ids ++ [id]) (Tops id ids ∧ ranked) formed where
  numbered := parts.numbered.node
  ranked := ⟨parts.numbered.tops, parts.ranked⟩
  formed := parts.formed

theorem perm (growth : Growth text lo hi ids ranked formed) (same : ids.Perm ids') :
    Growth text lo hi ids' ranked formed :=
  ⟨growth.numbered.perm same, growth.ranked, growth.formed⟩

theorem sublist (growth : Growth text lo hi ids ranked formed) (within : ids'.Sublist ids) :
    Growth text lo hi ids' ranked formed :=
  ⟨growth.numbered.sublist within, growth.ranked, growth.formed⟩

theorem mono (growth : Growth text lo hi ids ranked formed) (ranks : ranked → ranked')
    (forms : formed → formed') : Growth text lo hi ids ranked' formed' :=
  ⟨growth.numbered, ranks growth.ranked, fun known => forms (growth.formed known)⟩

theorem adding (growth : Growth text lo hi ids ranked formed) (more : text → formed') :
    Growth text lo hi ids ranked (formed ∧ formed') :=
  ⟨growth.numbered, growth.ranked, fun known => ⟨growth.formed known, more known⟩⟩

end Growth

section Trees

variable (text : Prop) (lo hi : Nat)

def Expr.Grown (e : Expr) : Prop := Growth text lo hi e.ids e.Ranked e.Formed

def ExprsGrown (es : List Expr) : Prop :=
  Growth text lo hi (exprsIds es) (ExprsRanked es) (ExprsFormed es)

def OptionalGrown (e : Option Expr) : Prop :=
  Growth text lo hi (optionalIds e) (OptionalRanked e) (OptionalFormed e)

def Stmt.Grown (s : Stmt) : Prop := Growth text lo hi s.ids s.Ranked s.Formed

def StmtsGrown (body : List Stmt) : Prop :=
  Growth text lo hi (stmtsIds body) (StmtsRanked body) (StmtsFormed body)

def FunctionDecl.Grown (decl : FunctionDecl) : Prop :=
  Growth text lo hi decl.ids decl.Ranked decl.Formed

def MethodsGrown (methods : List FunctionDecl) : Prop :=
  Growth text lo hi (methodsIds methods) (MethodsRanked methods) (MethodsFormed methods)

end Trees

section Lists

variable {α : Type} {ids : α → List NodeId} {allIds : List α → List NodeId} {one : α → Prop}
  {all : List α → Prop} {items : List α} {a : α}

structure Flat (ids : α → List NodeId) (allIds : List α → List NodeId) : Prop where
  nil : allIds [] = []
  cons : ∀ a rest, allIds (a :: rest) = ids a ++ allIds rest

structure Listwise (one : α → Prop) (all : List α → Prop) : Prop where
  nil : all []
  cons : ∀ a rest, all (a :: rest) ↔ one a ∧ all rest

theorem Flat.concat (flat : Flat ids allIds) (items : List α) (a : α) :
    allIds (items ++ [a]) = allIds items ++ ids a := by
  induction items with
  | nil => rw [List.nil_append, flat.cons, flat.nil, List.append_nil, List.nil_append]
  | cons first rest ih => rw [List.cons_append, flat.cons, flat.cons, ih, List.append_assoc]

theorem Listwise.concat (each : Listwise one all) (before : all items) (last : one a) :
    all (items ++ [a]) := by
  induction items with
  | nil => exact (each.cons a []).mpr ⟨last, each.nil⟩
  | cons first rest ih =>
    obtain ⟨here, later⟩ := (each.cons first rest).mp before
    exact (each.cons first (rest ++ [a])).mpr ⟨here, ih later⟩

theorem Growth.snoc {text : Prop} {lo mid hi : Nat} {ranked formed : α → Prop}
    {allRanked allFormed : List α → Prop} (flat : Flat ids allIds)
    (ranks : Listwise ranked allRanked) (forms : Listwise formed allFormed)
    (before : Growth text lo mid (allIds items) (allRanked items) (allFormed items))
    (last : Growth text mid hi (ids a) (ranked a) (formed a)) :
    Growth text lo hi (allIds (items ++ [a])) (allRanked (items ++ [a]))
      (allFormed (items ++ [a])) where
  numbered := flat.concat items a ▸ before.numbered.append last.numbered
  ranked := ranks.concat before.ranked last.ranked
  formed known := forms.concat (before.formed known) (last.formed known)

end Lists

section Snoc

variable {text : Prop} {lo mid hi : Nat}

theorem ExprsGrown.snoc {es : List Expr} {e : Expr} (before : ExprsGrown text lo mid es)
    (last : e.Grown text mid hi) : ExprsGrown text lo hi (es ++ [e]) :=
  Growth.snoc ⟨rfl, fun _ _ => rfl⟩ ⟨True.intro, fun _ _ => .rfl⟩
    ⟨True.intro, fun _ _ => .rfl⟩ before last

theorem StmtsGrown.snoc {body : List Stmt} {s : Stmt} (before : StmtsGrown text lo mid body)
    (last : s.Grown text mid hi) : StmtsGrown text lo hi (body ++ [s]) :=
  Growth.snoc ⟨rfl, fun _ _ => rfl⟩ ⟨True.intro, fun _ _ => .rfl⟩
    ⟨True.intro, fun _ _ => .rfl⟩ before last

theorem MethodsGrown.snoc {methods : List FunctionDecl} {m : FunctionDecl}
    (before : MethodsGrown text lo mid methods) (last : m.Grown text mid hi) :
    MethodsGrown text lo hi (methods ++ [m]) :=
  Growth.snoc ⟨rfl, fun _ _ => rfl⟩ ⟨True.intro, fun _ _ => .rfl⟩
    ⟨True.intro, fun _ _ => .rfl⟩ before last

end Snoc

section Readers

variable (text : Prop)

def Reader.BuildsExpr (r : Reader Expr) : Prop :=
  ∀ lo, r.Ensures text lo fun hi e => e.Grown text lo hi

def Reader.BuildsStmt (r : Reader Stmt) : Prop :=
  ∀ lo, r.Ensures text lo fun hi s => s.Grown text lo hi

def Reader.BuildsBranch (r : Reader Stmt) : Prop :=
  ∀ lo, r.Ensures text lo fun hi s => s.Grown text lo hi ∧ s.declared = []

end Readers

namespace Grammar

open Reader

variable {text : Prop}

section Expressions

variable {nested : Reader Expr} (inner : nested.BuildsExpr text)

include inner in
theorem ensures_arguments (closing : Symbol) (lo : Nat) :
    (separatedBefore closing nested).Ensures text lo fun hi es => ExprsGrown text lo hi es := by
  refine Ensures.separatedBefore ?_ (Growth.empty (Nat.le_refl lo))
  intro mid es before
  exact (inner mid).mono fun hi e last => before.snoc last

include inner in
theorem ensures_suffix {lo mid : Nat} {target : Expr} (before : target.Grown text lo mid) :
    (suffix nested target).Ensures text mid fun hi e => e.Grown text lo hi := by
  refine Ensures.take.bind fun _ opening taken => ?_
  obtain ⟨rfl, _⟩ := taken
  split
  · refine (ensures_arguments inner .rightParen _).bind fun after arguments built => ?_
    refine (Ensures.expect _ _).bind fun _ paren same => ?_
    subst same
    refine (Ensures.node _).mono ?_
    rintro _ _ ⟨rfl, rfl⟩
    exact (before.append built).node
  · refine (Ensures.expectName _).bind fun _ name taken => ?_
    obtain ⟨rfl, _⟩ := taken
    refine (Ensures.node _).mono ?_
    rintro _ _ ⟨rfl, rfl⟩
    exact before.node

theorem builds_literal (value : Literal) :
    Reader.BuildsExpr text (do let _ ← take; node (Expr.literal · value)) := by
  intro lo
  refine Ensures.take.bind fun _ _ taken => ?_
  obtain ⟨rfl, _⟩ := taken
  refine (Ensures.node _).mono ?_
  rintro _ _ ⟨rfl, rfl⟩
  exact Growth.leaf fun _ => True.intro

include inner in
theorem builds_primary : (primary nested).BuildsExpr text := by
  intro lo
  refine Ensures.current.bind fun _ t seen => ?_
  obtain ⟨rfl, genuine⟩ := seen
  split
  · exact builds_literal _ _
  · exact builds_literal _ _
  · exact builds_literal _ _
  · exact builds_literal _ _
  · exact builds_literal _ _
  · rename_i word
    refine Ensures.take.bind fun _ _ taken => ?_
    obtain ⟨rfl, _⟩ := taken
    refine (Ensures.expect _ _).bind fun _ _ same => ?_
    subst same
    refine (Ensures.expectName _).bind fun _ method taken => ?_
    obtain ⟨rfl, _⟩ := taken
    refine (Ensures.node _).mono ?_
    rintro _ _ ⟨rfl, rfl⟩
    exact Growth.leaf fun known => (genuine known).spelling word
  · rename_i word
    refine Ensures.take.bind fun _ _ taken => ?_
    obtain ⟨rfl, _⟩ := taken
    refine (Ensures.node _).mono ?_
    rintro _ _ ⟨rfl, rfl⟩
    exact Growth.leaf fun known => (genuine known).spelling word
  · rename_i name
    refine Ensures.take.bind fun _ _ taken => ?_
    obtain ⟨rfl, _⟩ := taken
    refine (Ensures.node _).mono ?_
    rintro _ _ ⟨rfl, rfl⟩
    exact Growth.leaf fun known => (genuine known).ordinary name
  · refine Ensures.take.bind fun _ _ taken => ?_
    obtain ⟨rfl, _⟩ := taken
    refine (inner _).bind fun after e built => ?_
    refine (Ensures.expect _ _).bind fun _ _ same => ?_
    subst same
    refine (Ensures.node _).mono ?_
    rintro _ _ ⟨rfl, rfl⟩
    exact built.node
  · exact Ensures.unexpected _ _

include inner in
theorem builds_chain : (chain nested).BuildsExpr text := by
  intro lo
  refine (builds_primary inner lo).bind fun mid first built => ?_
  exact Ensures.repeatWhile (fun _ target before => ensures_suffix inner before) built

include inner in
theorem builds_unary : (unary nested).BuildsExpr text := by
  intro lo
  refine (Ensures.many (P := fun hi _ => hi = lo) ?_ rfl).bind fun mid operators same => ?_
  · rintro mid operators rfl
    exact Ensures.take.mono fun hi _ taken => taken.1
  subst same
  refine (builds_chain inner _).bind fun mid operand built => ?_
  -- the operators apply one after another, each around what the later ones made
  generalize operators.reverse = remaining
  induction remaining generalizing mid operand with
  | nil => exact Ensures.pure built
  | cons operator rest ih =>
    rw [List.foldlM_cons]
    refine (Ensures.node _).bind ?_
    rintro _ _ ⟨rfl, rfl⟩
    exact ih _ _ built.node

def Tier.Builds (text : Prop) (tier : Tier) : Prop :=
  ∀ lo mid id left operator right, Expr.Grown text lo mid left → Expr.Grown text mid id right →
    Expr.Grown text lo (id + 1) (tier.build id left operator right)

theorem tiers_build : ∀ tier ∈ tiers, tier.Builds text := by
  intro tier member lo mid id left operator right one other
  simp only [tiers, List.mem_cons, List.not_mem_nil, or_false] at member
  rcases member with rfl | rfl | rfl | rfl | rfl | rfl
  all_goals exact (one.append other).node

theorem builds_leftToRight {tier : Tier} (builds : tier.Builds text) {operand : Reader Expr}
    (each : operand.BuildsExpr text) : (leftToRight tier operand).BuildsExpr text := by
  intro lo
  refine (each lo).bind fun mid first built => ?_
  refine Ensures.repeatWhile (fun mid left before => ?_) built
  refine Ensures.take.bind fun _ operator taken => ?_
  obtain ⟨rfl, _⟩ := taken
  refine (each _).bind fun after right last => ?_
  refine (Ensures.node _).mono ?_
  rintro _ _ ⟨rfl, rfl⟩
  exact builds lo _ after left operator right before last

theorem builds_operatorsOver {operand : Reader Expr} (each : operand.BuildsExpr text) :
    (operatorsOver operand).BuildsExpr text := by
  have build : ∀ tier ∈ tiers, tier.Builds text := tiers_build
  unfold operatorsOver
  generalize tiers = remaining at build
  induction remaining with
  | nil => exact each
  | cons tier rest ih =>
    exact builds_leftToRight (build tier List.mem_cons_self)
      (ih fun other member => build other (List.mem_cons_of_mem _ member))

include inner in
theorem builds_assignment : (assignment nested).BuildsExpr text := by
  intro lo
  refine (builds_operatorsOver (builds_unary inner) lo).bind fun mid target built => ?_
  refine Ensures.current.bind fun _ t seen => ?_
  obtain ⟨rfl, _⟩ := seen
  split
  · refine Ensures.take.bind fun _ _ taken => ?_
    obtain ⟨rfl, _⟩ := taken
    refine (inner _).bind fun after value last => ?_
    split
    · refine (Ensures.node _).mono ?_
      rintro _ _ ⟨rfl, rfl⟩
      -- the node of the name is dropped, and its number with it
      have inner := (built.append last).sublist (List.sublist_append_right _ _)
      exact (inner.mono And.right And.right).node.adding built.formed
    · rename_i id object name
      refine (Ensures.node _).mono ?_
      rintro _ _ ⟨rfl, rfl⟩
      have inner := built.sublist (List.sublist_append_left object.ids [id])
      have kept := inner.mono And.right fun formed => formed
      exact ((kept.append last).perm List.perm_append_comm).node
    · exact Ensures.unexpected _ _
  · exact Ensures.pure built

end Expressions

theorem builds_expressionWithin (n : Nat) : Reader.BuildsExpr text fun c => expressionWithin n c := by
  induction n with
  | zero =>
    intro lo c genuine start
    exact Nat.le_of_eq start.symm
  | succ n ih => exact builds_assignment ih

theorem builds_expression : expression.BuildsExpr text :=
  fun lo c => builds_expressionWithin (c.rest.length + 1) lo c

theorem builds_expressionStatement : expressionStatement.BuildsBranch text := by
  intro lo
  refine (builds_expression lo).bind fun after e built => ?_
  refine (Ensures.expect _ _).bind fun _ _ same => ?_
  subst same
  refine (Ensures.node _).mono ?_
  rintro _ _ ⟨rfl, rfl⟩
  exact ⟨built.node, rfl⟩

theorem ensures_optionalExpression (closing : Symbol) (lo : Nat) :
    (optionalBefore closing expression).Ensures text lo fun hi e => OptionalGrown text lo hi e :=
  Ensures.optionalBefore (builds_expression lo) (Growth.empty (Nat.le_refl lo))

theorem ensures_variable (name : Token) (ordinary : text → name.Ordinary) {lo mid : Nat}
    {value : Option Expr} (built : OptionalGrown text lo mid value) :
    Reader.Ensures text (do let _ ← expect .semicolon .afterVariable; node (.var · name value)) mid
      fun hi s => Stmt.Grown text lo hi s := by
  refine (Ensures.expect _ _).bind fun _ _ same => ?_
  subst same
  refine (Ensures.node _).mono ?_
  rintro _ _ ⟨rfl, rfl⟩
  exact built.node.adding ordinary

theorem builds_varDeclaration : varDeclaration.BuildsStmt text := by
  intro lo
  refine (Ensures.expectName _).bind fun _ name taken => ?_
  obtain ⟨rfl, ordinary⟩ := taken
  refine (Ensures.takeIf _).bind fun _ found same => ?_
  subst same
  dsimp only
  split
  · refine Ensures.bind (P := fun hi e => OptionalGrown text _ hi e)
      (Ensures.map (builds_expression _)) fun mid value built => ?_
    exact ensures_variable name ordinary built
  · exact ensures_variable name ordinary (Growth.empty (Nat.le_refl _))

section Nested

variable {declaration statement : Reader Stmt} (declarations : declaration.BuildsStmt text)
  (statements : statement.BuildsBranch text)

include declarations in
theorem ensures_block (lo : Nat) :
    (block declaration).Ensures text lo fun hi body => StmtsGrown text lo hi body := by
  refine (Ensures.many (P := fun hi body => StmtsGrown text lo hi body) ?_
    (Growth.empty (Nat.le_refl lo))).bind fun mid body built => ?_
  · intro mid body before
    exact (declarations mid).mono fun hi s last => before.snoc last
  refine (Ensures.expect _ _).bind fun _ _ same => ?_
  subst same
  exact Ensures.pure built

theorem ensures_parameters (closing : Symbol) (lo : Nat) :
    (separatedBefore closing (expectName .parameter)).Ensures text lo
      fun hi params => hi = lo ∧ (text → ∀ param ∈ params, param.Ordinary) := by
  refine Ensures.separatedBefore ?_ ⟨rfl, fun _ => List.forall_mem_nil _⟩
  rintro mid params ⟨rfl, before⟩
  refine (Ensures.expectName _).mono fun hi name taken => ⟨taken.1, fun known => ?_⟩
  exact List.forall_mem_append.mpr ⟨before known, List.forall_mem_singleton.mpr (taken.2 known)⟩

include declarations in
theorem ensures_function (sort : FunctionSort) (lo : Nat) :
    (function declaration sort).Ensures text lo fun hi decl => decl.Grown text lo hi := by
  refine (Ensures.expectName _).bind fun _ name taken => ?_
  obtain ⟨rfl, ordinary⟩ := taken
  refine (Ensures.expect _ _).bind fun _ _ same => ?_
  subst same
  refine (ensures_parameters _ _).bind fun _ params found => ?_
  obtain ⟨rfl, ordinaries⟩ := found
  refine (Ensures.expect _ _).bind fun _ _ same => ?_
  subst same
  refine (Ensures.expect _ _).bind fun _ _ same => ?_
  subst same
  refine (ensures_block declarations _).bind fun after body built => ?_
  refine (Ensures.node _).mono ?_
  rintro _ _ ⟨rfl, rfl⟩
  exact built.node.adding fun known => ⟨ordinary known, ordinaries known⟩

include declarations in
theorem ensures_classBody (name : Token) (ordinary : text → name.Ordinary) {lo mid : Nat}
    {superclass : Option Variable}
    (inherited : Growth text lo mid (superclass.map (·.id)).toList True (HeritageFormed superclass)) :
    Reader.Ensures text
      (do
        let _ ← expect .leftBrace .beforeClassBody
        let methods ←
          many (fun t => !t.isSymbol .rightBrace && !t.isEnding) (function declaration .method)
        let _ ← expect .rightBrace .afterClassBody
        node (.classDecl · name superclass methods)) mid
      fun hi s => Stmt.Grown text lo hi s := by
  refine (Ensures.expect _ _).bind fun before _ same => ?_
  subst same
  refine (Ensures.many (P := fun hi methods => MethodsGrown text before hi methods) ?_
    (Growth.empty (Nat.le_refl before))).bind fun after methods built => ?_
  · intro mid methods earlier
    exact (ensures_function declarations .method mid).mono fun hi m last => earlier.snoc last
  refine (Ensures.expect _ _).bind fun _ _ same => ?_
  subst same
  refine (Ensures.node _).mono ?_
  rintro _ _ ⟨rfl, rfl⟩
  exact (inherited.append (built.adding ordinary)).node.mono (And.imp_right And.right) id

include declarations in
theorem builds_classDeclaration : (classDeclaration declaration).BuildsStmt text := by
  intro lo
  refine (Ensures.expectName _).bind fun _ name taken => ?_
  obtain ⟨rfl, ordinary⟩ := taken
  refine (Ensures.takeIf _).bind fun _ found same => ?_
  subst same
  dsimp only
  split
  · refine (Ensures.expectName _).bind fun _ superName taken => ?_
    obtain ⟨rfl, known⟩ := taken
    refine Ensures.bind (Ensures.map ((Ensures.node _).mono ?_))
      fun mid superclass inherited => ensures_classBody declarations name ordinary inherited
    rintro _ _ ⟨rfl, rfl⟩
    exact Growth.leaf known
  · exact ensures_classBody declarations name ordinary (Growth.empty (Nat.le_refl _))

theorem ensures_forInitializer (lo : Nat) :
    forInitializer.Ensures text lo
      fun hi initializer => lo ≤ hi ∧ ∀ s ∈ initializer, s.Grown text lo hi := by
  refine (Ensures.takeIf _).bind fun _ found same => ?_
  subst same
  split
  · exact Ensures.pure (by simp)
  · refine (Ensures.takeIf _).bind fun _ found same => ?_
    subst same
    split
    · refine Ensures.map ((builds_varDeclaration _).mono fun hi s built => ⟨built.numbered.1, ?_⟩)
      rintro _ ⟨⟩
      exact built
    · refine Ensures.map ((builds_expressionStatement _).mono
        fun hi s built => ⟨built.1.numbered.1, ?_⟩)
      rintro _ ⟨⟩
      exact built.1

theorem ensures_forBlock {lo mid after : Nat} {initializer : Option Stmt} {loop : Stmt}
    (before : lo ≤ mid ∧ ∀ s ∈ initializer, s.Grown text lo mid)
    (built : loop.Grown text mid after ∧ loop.declared = []) :
    Reader.Ensures text
      (match initializer with
        | none => (return loop : Reader Stmt)
        | some s => node (.block · [s, loop])) after
      fun hi s => s.Grown text lo hi ∧ s.declared = [] := by
  cases initializer with
  | none =>
    have both := (Growth.empty before.1).append built.1
    exact Ensures.pure ⟨both.mono And.right And.right, built.2⟩
  | some s =>
    refine (Ensures.node _).mono ?_
    rintro _ _ ⟨rfl, rfl⟩
    have first : StmtsGrown text lo mid ([] ++ [s]) :=
      StmtsGrown.snoc (Growth.empty (Nat.le_refl lo)) (before.2 s rfl)
    exact ⟨(first.snoc built.1).node, rfl⟩

/-- The loop with its condition, which is the word `true` if it was left out. -/
theorem ensures_forWhile {lo start mid after : Nat} {initializer : Option Stmt}
    {condition : Option Expr} {body : Stmt}
    (before : lo ≤ start ∧ ∀ s ∈ initializer, s.Grown text lo start)
    (tested : OptionalGrown text start mid condition)
    (built : body.Grown text mid after ∧ body.declared = []) :
    Reader.Ensures text
      (do
        let condition ← match condition with
          | some e => pure e
          | none => node (.literal · (.bool true))
        let loop ← node (Stmt.loop · condition body)
        match initializer with
        | none => return loop
        | some s => node (.block · [s, loop]) : Reader Stmt) after
      fun hi s => s.Grown text lo hi ∧ s.declared = [] := by
  cases condition with
  | some e =>
    dsimp only
    refine (Ensures.pure (P := fun hi c => hi = after ∧ c = e) ⟨rfl, rfl⟩).bind ?_
    rintro _ _ ⟨rfl, rfl⟩
    refine (Ensures.node _).bind ?_
    rintro _ _ ⟨rfl, rfl⟩
    exact ensures_forBlock before
      ⟨(tested.append (built.1.adding fun _ => built.2)).node, built.2⟩
  | none =>
    refine (Ensures.node _).bind ?_
    rintro _ _ ⟨rfl, rfl⟩
    refine (Ensures.node _).bind ?_
    rintro _ _ ⟨rfl, rfl⟩
    have literal : Growth text after (after + 1) [after] True True := Growth.leaf fun _ => True.intro
    have parts := (tested.append built.1).append literal
    refine ensures_forBlock before ⟨(parts.perm List.perm_append_comm).node.mono ?_ ?_, built.2⟩
    · rintro ⟨tops, ⟨_, ranked⟩, _⟩
      exact ⟨tops, True.intro, ranked⟩
    · rintro ⟨⟨_, formed⟩, _⟩
      exact ⟨True.intro, formed, built.2⟩

theorem ensures_forLoopOf {lo start first mid after : Nat} {initializer : Option Stmt}
    {condition increment : Option Expr} {body : Stmt}
    (before : lo ≤ start ∧ ∀ s ∈ initializer, s.Grown text lo start)
    (tested : OptionalGrown text start first condition)
    (stepped : OptionalGrown text first mid increment)
    (built : body.Grown text mid after ∧ body.declared = []) :
    (forLoopOf initializer condition increment body).Ensures text after
      fun hi s => s.Grown text lo hi ∧ s.declared = [] := by
  cases increment with
  | none =>
    have both := stepped.append built.1
    exact ensures_forWhile before tested ⟨both.mono And.right And.right, built.2⟩
  | some e =>
    refine (Ensures.node _).bind ?_
    rintro _ _ ⟨rfl, rfl⟩
    refine (Ensures.node _).bind ?_
    rintro _ _ ⟨rfl, rfl⟩
    -- the increment is read before the body and stands behind it
    have parts := (stepped.append built.1).perm List.perm_append_comm
    have inner : StmtsGrown text first (after + 1) [body, .expression after e] := by
      refine ⟨?_, ⟨parts.ranked.2, ⟨fun i member => ?_, parts.ranked.1⟩, True.intro⟩, fun known => ?_⟩
      · simpa [stmtsIds, Stmt.ids, optionalIds] using parts.numbered.node
      · exact parts.numbered.tops i (List.mem_append_right _ member)
      · exact ⟨(parts.formed known).2, (parts.formed known).1, True.intro⟩
    exact ensures_forWhile before tested ⟨inner.node, rfl⟩

include statements in
theorem builds_forLoop : (forLoop statement).BuildsBranch text := by
  intro lo
  refine (Ensures.expect _ _).bind fun _ _ same => ?_
  subst same
  refine (ensures_forInitializer _).bind fun start initializer before => ?_
  refine (ensures_optionalExpression _ _).bind fun first condition tested => ?_
  refine (Ensures.expect _ _).bind fun _ _ same => ?_
  subst same
  refine (ensures_optionalExpression _ _).bind fun mid increment stepped => ?_
  refine (Ensures.expect _ _).bind fun _ _ same => ?_
  subst same
  refine (statements _).bind fun after body built => ?_
  exact ensures_forLoopOf before tested stepped built

include statements in
theorem builds_conditional : (conditional statement).BuildsBranch text := by
  intro lo
  refine (Ensures.expect _ _).bind fun _ _ same => ?_
  subst same
  refine (builds_expression _).bind fun mid condition tested => ?_
  refine (Ensures.expect _ _).bind fun _ _ same => ?_
  subst same
  refine (statements _).bind fun after yes chosen => ?_
  have parts := tested.append (chosen.1.adding fun _ => chosen.2)
  refine (Ensures.takeIf _).bind fun now found same => ?_
  subst same
  dsimp only
  split
  · refine Ensures.bind (Ensures.map
      (Q := fun hi no => ∃ s, no = some s ∧ s.Grown text now hi ∧ s.declared = [])
      ((statements _).mono fun hi s built => ⟨s, rfl, built⟩)) ?_
    rintro last _ ⟨no, rfl, other⟩
    refine (Ensures.node _).mono ?_
    rintro _ _ ⟨rfl, rfl⟩
    have all := (parts.append (other.1.adding fun _ => other.2)).node
    refine ⟨all.mono id fun formed => ⟨formed.1.1, formed.1.2, formed.2⟩, ?_⟩
    simp [Stmt.declared, chosen.2, other.2]
  · refine Ensures.bind (P := fun hi no => hi = _ ∧ no = none) (Ensures.pure ⟨rfl, rfl⟩) ?_
    rintro _ _ ⟨rfl, rfl⟩
    refine (Ensures.node _).mono ?_
    rintro _ _ ⟨rfl, rfl⟩
    exact ⟨parts.node, chosen.2⟩

include statements in
theorem builds_whileLoop : (whileLoop statement).BuildsBranch text := by
  intro lo
  refine (Ensures.expect _ _).bind fun _ _ same => ?_
  subst same
  refine (builds_expression _).bind fun mid condition tested => ?_
  refine (Ensures.expect _ _).bind fun _ _ same => ?_
  subst same
  refine (statements _).bind fun after body built => ?_
  refine (Ensures.node _).mono ?_
  rintro _ _ ⟨rfl, rfl⟩
  exact ⟨(tested.append (built.1.adding fun _ => built.2)).node, built.2⟩

theorem builds_printStatement : printStatement.BuildsBranch text := by
  intro lo
  refine (builds_expression lo).bind fun after e built => ?_
  refine (Ensures.expect _ _).bind fun _ _ same => ?_
  subst same
  refine (Ensures.node _).mono ?_
  rintro _ _ ⟨rfl, rfl⟩
  exact ⟨built.node, rfl⟩

theorem builds_returnStatement (keyword : Token) : (returnStatement keyword).BuildsBranch text := by
  intro lo
  refine (ensures_optionalExpression _ _).bind fun after value built => ?_
  refine (Ensures.expect _ _).bind fun _ _ same => ?_
  subst same
  refine (Ensures.node _).mono ?_
  rintro _ _ ⟨rfl, rfl⟩
  exact ⟨built.node, rfl⟩

theorem builds_afterWord {r : Reader Stmt} {P : Nat → Nat → Stmt → Prop}
    (rest : ∀ lo, r.Ensures text lo fun hi s => P lo hi s) (lo : Nat) :
    Reader.Ensures text (do let _ ← take; r) lo fun hi s => P lo hi s := by
  refine Ensures.take.bind fun _ _ taken => ?_
  obtain ⟨rfl, _⟩ := taken
  exact rest _

include declarations statements in
theorem builds_statementOver : (statementOver declaration statement).BuildsBranch text := by
  intro lo
  refine Ensures.current.bind fun _ t seen => ?_
  obtain ⟨rfl, _⟩ := seen
  split
  · exact builds_afterWord (builds_forLoop statements) _
  · exact builds_afterWord (builds_conditional statements) _
  · exact builds_afterWord builds_printStatement _
  · exact builds_afterWord (builds_returnStatement t) _
  · exact builds_afterWord (builds_whileLoop statements) _
  · refine Ensures.take.bind fun _ _ taken => ?_
    obtain ⟨rfl, _⟩ := taken
    refine (ensures_block declarations _).bind fun after body built => ?_
    refine (Ensures.node _).mono ?_
    rintro _ _ ⟨rfl, rfl⟩
    exact ⟨built.node, rfl⟩
  · exact builds_expressionStatement _

include declarations statements in
theorem builds_declarationOver : (declarationOver declaration statement).BuildsStmt text := by
  intro lo
  refine Ensures.current.bind fun _ t seen => ?_
  obtain ⟨rfl, _⟩ := seen
  split
  · exact builds_afterWord (builds_classDeclaration declarations) _
  · refine Ensures.take.bind fun _ _ taken => ?_
    obtain ⟨rfl, _⟩ := taken
    exact Ensures.map (ensures_function declarations .function _)
  · exact builds_afterWord builds_varDeclaration _
  · exact (builds_statementOver declarations statements _).mono fun hi s built => built.1

end Nested

theorem builds_within (n : Nat) :
    (Reader.BuildsStmt text fun c => declarationWithin n c) ∧
      Reader.BuildsBranch text fun c => statementWithin n c := by
  induction n with
  | zero =>
    constructor
    · intro lo c genuine start
      exact Nat.le_of_eq start.symm
    · intro lo c genuine start
      exact Nat.le_of_eq start.symm
  | succ n ih => exact ⟨builds_declarationOver ih.1 ih.2, builds_statementOver ih.1 ih.2⟩

theorem builds_declaration : declaration.BuildsStmt text :=
  fun lo c => (builds_within (c.rest.length + 1)).1 lo c

theorem ensures_program (lo : Nat) :
    program.Ensures text lo fun hi body => StmtsGrown text lo hi body := by
  refine Ensures.many ?_ (Growth.empty (Nat.le_refl lo))
  intro mid body before
  exact (builds_declaration mid).mono fun hi s last => before.snoc last

end Grammar

def StmtsBuilt (lo hi : Nat) (body : List Stmt) : Prop :=
  Numbered lo hi (stmtsIds body) ∧ StmtsFormed body

theorem grown_of_parse {firstId : Nat} {tokens : List Token} {program : List Stmt} {stop : Cursor}
    (parsed : parse firstId tokens = (.ok program, stop)) :
    StmtsGrown (∀ t ∈ tokens, t.Genuine) firstId stop.nextId program := by
  have ensured := Grammar.ensures_program firstId ⟨tokens, firstId⟩
    (fun genuine : ∀ t ∈ tokens, t.Genuine => genuine) rfl
  unfold parse at parsed
  split at parsed
  · rename_i body c read
    cases parsed
    rw [read] at ensured
    exact ensured.2.2
  · cases parsed

theorem built_of_parse {firstId : Nat} {tokens : List Token} {program : List Stmt} {stop : Cursor}
    (genuine : ∀ t ∈ tokens, t.Genuine) (parsed : parse firstId tokens = (.ok program, stop)) :
    StmtsBuilt firstId stop.nextId program := by
  have grown := grown_of_parse parsed
  exact ⟨grown.numbered, grown.formed genuine⟩

theorem nextId_of_parse (firstId : Nat) (tokens : List Token) :
    firstId ≤ (parse firstId tokens).2.nextId := by
  have ensured := Grammar.ensures_program firstId ⟨tokens, firstId⟩ False.elim rfl
  unfold parse
  split
  · rename_i body c read
    rw [read] at ensured
    exact ensured.1
  · rename_i e c read
    rw [read] at ensured
    exact ensured

end LoxMachine
