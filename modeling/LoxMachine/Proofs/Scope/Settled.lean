import LoxMachine.Proofs.Scope.Places
import LoxMachine.Proofs.Scope.Blamed
import LoxMachine.Proofs.Program.Declarations

namespace LoxMachine.Static

variable {taken : List String} {levels : List Level} {own all : List Token}

def Origin.declared : Origin → List String
  | block _ names | function _ names => names
  | global | receiver | heritage => []

theorem declared_of_ordinary {origin : Origin} {name : String} (named : name ∈ origin.names)
    (ordinary : name ≠ "this" ∧ name ≠ "super") : name ∈ origin.declared := by
  cases origin with
  | block | function => exact named
  | global => cases named
  | receiver => exact absurd (List.mem_singleton.mp named) ordinary.1
  | heritage => exact absurd (List.mem_singleton.mp named) ordinary.2

def declaredAround (levels : List Level) : List String := levels.flatMap (·.origin.declared)

structure Grounded (levels : List Level) : Prop where
  ordinary : ∀ level ∈ levels, ∀ name ∈ level.origin.declared, name ≠ "this" ∧ name ≠ "super"
  whole : ∀ level ∈ levels, ∀ name ∈ level.origin.names,
    name ∈ level.origin.declared ∨ level.table.contains name = true

structure Apart (taken : List String) (levels : List Level) : Prop where
  grounded : Grounded levels
  once : (taken ++ declaredAround levels).Nodup

theorem Grounded.nil : Grounded [] := by
  constructor
  · intro level member
    cases member
  · intro level member
    cases member

theorem Grounded.push {level : Level} (grounded : Grounded levels)
    (ordinary : ∀ name ∈ level.origin.declared, name ≠ "this" ∧ name ≠ "super")
    (whole : ∀ name ∈ level.origin.names,
      name ∈ level.origin.declared ∨ level.table.contains name = true) :
    Grounded (level :: levels) :=
  ⟨List.forall_mem_cons.mpr ⟨ordinary, grounded.ordinary⟩,
    List.forall_mem_cons.mpr ⟨whole, grounded.whole⟩⟩

theorem Grounded.stage {name : String} {s : Stage} (grounded : Grounded levels) :
    Grounded (stage levels name s) := by
  cases levels with
  | nil => exact grounded
  | cons level outer =>
    obtain ⟨ordinary, outer_ordinary⟩ := List.forall_mem_cons.mp grounded.ordinary
    obtain ⟨whole, outer_whole⟩ := List.forall_mem_cons.mp grounded.whole
    have inner : Grounded outer := ⟨outer_ordinary, outer_whole⟩
    have named : ∀ other ∈ level.origin.names, other ∈ level.origin.declared ∨
        (level.table.put name s).contains other = true := by
      intro other member
      apply (whole other member).imp_right
      intro present
      simp [Table.contains_put, present]
    exact inner.push ordinary named

theorem Grounded.addAll (grounded : Grounded levels) (names : List Token) :
    Grounded (addAll levels names) := by
  induction names generalizing levels with
  | nil => exact grounded
  | cons name rest ih => exact ih grounded.stage.stage

theorem declaredAround_stage (levels : List Level) (name : String) (s : Stage) :
    declaredAround (stage levels name s) = declaredAround levels := by
  cases levels <;> rfl

theorem declaredAround_addAll (levels : List Level) (names : List Token) :
    declaredAround (addAll levels names) = declaredAround levels := by
  induction names generalizing levels with
  | nil => rfl
  | cons name rest ih =>
    rw [addAll, List.foldl_cons]
    apply (ih (add levels name)).trans
    rw [add, announce, declaredAround_stage, declaredAround_stage]

theorem Apart.announce (apart : Apart taken levels) (name : Token) :
    Apart taken (announce levels name) := by
  refine ⟨apart.grounded.stage, ?_⟩
  rw [Static.announce, declaredAround_stage]
  exact apart.once

theorem Apart.not_named {name : String} {d k : Nat} {level inner : Level}
    (apart : Apart taken levels) (located : locate levels name = some d)
    (there : levels[d]? = some level) (named : name ∈ level.origin.names) (sooner : k < d)
    (here : levels[k]? = some inner) : name ∉ inner.origin.names := by
  intro binds
  obtain ⟨within, _, before⟩ := List.findIdx?_eq_some_iff_getElem.mp located
  have missing : inner.table.contains name = false := by
    have first := before k sooner
    rw [List.getElem?_eq_getElem (Nat.lt_trans sooner within)] at here
    cases here
    exact Bool.eq_false_iff.mpr first
  have declares : name ∈ inner.origin.declared := by
    apply (apart.grounded.whole inner (List.mem_of_getElem? here) name binds).resolve_right
    rw [missing]
    exact Bool.false_ne_true
  have ordinary := apart.grounded.ordinary inner (List.mem_of_getElem? here) name declares
  have declared := declared_of_ordinary named ordinary
  have pairs := (List.pairwise_flatMap.mp (List.nodup_append.mp apart.once).2.1).2
  obtain ⟨inside, rfl⟩ := List.getElem?_eq_some_iff.mp here
  obtain ⟨_, rfl⟩ := List.getElem?_eq_some_iff.mp there
  exact List.pairwise_iff_getElem.mp pairs k d inside within sooner name declares name declared rfl

theorem Apart.not_taken {name : String} {level : Level} (apart : Apart taken levels)
    (absent : locate levels name = none) (known : name ∈ taken) (member : level ∈ levels) :
    name ∉ level.origin.names := by
  intro binds
  have missing := List.findIdx?_eq_none_iff.mp absent level member
  have declared : name ∈ level.origin.declared := by
    apply (apart.grounded.whole level member name binds).resolve_right
    rw [missing]
    exact Bool.false_ne_true
  exact (List.nodup_append.mp apart.once).2.2 name known name
    (List.mem_flatMap.mpr ⟨level, member, declared⟩) rfl

/-- A text stands in the levels that declares some names in their innermost scope, and all together
these. -/
structure Ground (taken : List String) (levels : List Level) (own all : List Token) : Prop where
  ready : Ready levels
  grounded : Grounded levels
  once : ∀ name, taken.count name + (declaredAround levels).count name +
    (all.map (·.lexeme)).count name ≤ 1 + (own.map (·.lexeme)).count name

theorem Ground.apart (ground : Ground taken levels own all) (within : own.Sublist all) :
    Apart taken levels := by
  refine ⟨ground.grounded, List.nodup_iff_count.mpr fun name => ?_⟩
  have bound := ground.once name
  have fewer := (within.map (·.lexeme)).count_le name
  rw [List.count_append]
  omega

theorem Ground.left {later rest : List Token}
    (ground : Ground taken levels (own ++ later) (all ++ rest)) (within : later.Sublist rest) :
    Ground taken levels own all := by
  refine ⟨ground.ready, ground.grounded, fun name => ?_⟩
  have bound := ground.once name
  have fewer := (within.map (·.lexeme)).count_le name
  simp only [List.map_append, List.count_append] at bound
  omega

theorem Ground.right {later rest : List Token}
    (ground : Ground taken levels (own ++ later) (all ++ rest)) (within : own.Sublist all) :
    Ground taken (addAll levels own) later rest := by
  refine ⟨ground.ready.addAll own, ground.grounded.addAll own, fun name => ?_⟩
  have bound := ground.once name
  have fewer := (within.map (·.lexeme)).count_le name
  simp only [List.map_append, List.count_append] at bound
  rw [declaredAround_addAll]
  omega

theorem Ground.push {origin : Origin} {all : List Token} (ground : Ground taken levels [] all)
    (names : origin.names = own.map (·.lexeme)) (declared : origin.declared = origin.names)
    (ordinary : ∀ name ∈ own, name.Ordinary) : Ground taken (⟨origin, []⟩ :: levels) own all := by
  refine ⟨.push origin levels, ground.grounded.push ?_ ?_, fun name => ?_⟩
  · intro name member
    rw [declared, names] at member
    obtain ⟨token, here, rfl⟩ := List.mem_map.mp member
    exact ordinary token here
  · intro name member
    exact .inl (declared ▸ member)
  · have bound := ground.once name
    simp only [declaredAround, List.flatMap_cons, List.count_append, declared, names,
      List.map_nil, List.count_nil] at bound ⊢
    omega

theorem Ground.around {level : Level} {all : List Token} (ground : Ground taken levels [] all)
    (declared : level.origin.declared = []) (ready : Ready (level :: levels))
    (whole : ∀ name ∈ level.origin.names, level.table.contains name = true) :
    Ground taken (level :: levels) [] all := by
  refine ⟨ready, ground.grounded.push ?_ fun name member => .inr (whole name member), fun name => ?_⟩
  · intro name member
    rw [declared] at member
    cases member
  · have bound := ground.once name
    simpa only [declaredAround, List.flatMap_cons, declared, List.nil_append] using bound

theorem Ready.single (origin : Origin) (name : String) (levels : List Level) :
    Ready (⟨origin, [(name, .defined)]⟩ :: levels) := by
  rintro _ ⟨⟩ x
  rw [Table.get?_cons]
  split
  · simp
  · simp [Table.get?]

theorem Ground.methods {all : List Token} (ground : Ground taken levels [] all)
    (superclass : Option Variable) :
    Ground taken (receiverLevel :: classLevels levels superclass) [] all := by
  have class_ground : Ground taken (classLevels levels superclass) [] all := by
    cases superclass with
    | none => exact ground
    | some use =>
      apply ground.around rfl (.single .heritage "super" levels)
      intro name member
      rw [List.mem_singleton.mp member]
      rfl
  apply class_ground.around rfl (.single .receiver "this" _)
  intro name member
  rw [List.mem_singleton.mp member]
  rfl

/-- The scope that the static pass finds for a use is the first one that could bind the name, and it
binds the name already. -/
def Occurrence.Settled (taken : List String) : Occurrence → Prop
  | use _ name levels => Apart taken levels ∧
    ∀ level ∈ levels.head?, level.table.get? name.lexeme ≠ some .declared
  | «variable» _ _ _ | parameter _ _ _ | callable _ _ | mark _ _ | scope _ => True

theorem Occurrence.Plain.settled {ids : List NodeId} {o : Occurrence} (plain : o.Plain levels ids)
    (apart : Apart taken levels) (ready : Ready levels) : o.Settled taken := by
  cases plain with
  | use own name => exact ⟨apart, fun level member => ready level member _⟩
  | mark own token => exact True.intro

variable {G : Occurrence → Prop}

mutual

/-- An initializer that does not assign its variable does not use it. -/
theorem unused_in_expr {p : Site} {pending : Token} (e : Expr) (fits : e.Fits G p)
    (waiting : p.pending = some pending.lexeme) (inner : p.levels ≠ [])
    (ordinary : pending.Ordinary) (unassigned : ∀ name ∈ e.assigned, name.lexeme ≠ pending.lexeme) :
    ∀ id name levels, .use id name levels ∈ e.occurrences p.levels →
      name.lexeme ≠ pending.lexeme := by
  intro id name levels member
  match e with
  | .literal _ _ => cases member
  | .read use =>
    cases List.mem_singleton.mp member
    exact fun same => fits.2 inner (waiting.trans (congrArg some same.symm))
  | .assign own target value =>
    rw [Expr.assigned, List.forall_mem_cons] at unassigned
    rcases List.mem_append.mp member with within | here
    · exact unused_in_expr value fits.1 waiting inner ordinary unassigned.2 id name levels within
    · cases List.mem_singleton.mp here
      exact unassigned.1
  | .unary own operator right =>
    simp only [Expr.occurrences, List.mem_cons, reduceCtorEq, false_or] at member
    exact unused_in_expr right fits.2 waiting inner ordinary unassigned id name levels member
  | .binary own left operator right | .logical own left operator right =>
    simp only [Expr.occurrences, List.mem_cons, reduceCtorEq, false_or, List.mem_append] at member
    simp only [Expr.assigned, List.forall_mem_append] at unassigned
    rcases member with one | other
    · exact unused_in_expr left fits.2.1 waiting inner ordinary unassigned.1 id name levels one
    · exact unused_in_expr right fits.2.2 waiting inner ordinary unassigned.2 id name levels other
  | .grouping own within =>
    exact unused_in_expr within fits waiting inner ordinary unassigned id name levels member
  | .call own callee paren arguments =>
    simp only [Expr.occurrences, List.mem_cons, reduceCtorEq, false_or, List.mem_append] at member
    simp only [Expr.assigned, List.forall_mem_append] at unassigned
    rcases member with one | other
    · exact unused_in_expr callee fits.2.1 waiting inner ordinary unassigned.1 id name levels one
    · exact unused_in_exprs arguments fits.2.2 waiting inner ordinary unassigned.2 id name levels other
  | .get own object property =>
    simp only [Expr.occurrences, List.mem_cons, reduceCtorEq, false_or] at member
    exact unused_in_expr object fits.2 waiting inner ordinary unassigned id name levels member
  | .set own object property value =>
    simp only [Expr.occurrences, List.mem_cons, reduceCtorEq, false_or, List.mem_append] at member
    simp only [Expr.assigned, List.forall_mem_append] at unassigned
    rcases member with one | other
    · exact unused_in_expr value fits.2.2 waiting inner ordinary unassigned.2 id name levels one
    · exact unused_in_expr object fits.2.1 waiting inner ordinary unassigned.1 id name levels other
  | .this own keyword =>
    cases List.mem_singleton.mp member
    exact fits.1 ▸ ordinary.1.symm
  | .super own keyword method =>
    simp only [Expr.occurrences, List.mem_cons, reduceCtorEq, List.not_mem_nil, or_false] at member
    cases member
    exact fits.1 ▸ ordinary.2.symm

theorem unused_in_exprs {p : Site} {pending : Token} (es : List Expr) (fit : ExprsFit G p es)
    (waiting : p.pending = some pending.lexeme) (inner : p.levels ≠ [])
    (ordinary : pending.Ordinary) (unassigned : ∀ name ∈ exprsAssigned es, name.lexeme ≠ pending.lexeme) :
    ∀ id name levels, .use id name levels ∈ exprsOccurrences p.levels es →
      name.lexeme ≠ pending.lexeme := by
  intro id name levels member
  match es with
  | [] => cases member
  | e :: rest =>
    rw [exprsAssigned, List.forall_mem_append] at unassigned
    rcases List.mem_append.mp member with one | other
    · exact unused_in_expr e fit.1 waiting inner ordinary unassigned.1 id name levels one
    · exact unused_in_exprs rest fit.2 waiting inner ordinary unassigned.2 id name levels other

end

theorem settled_expr (ground : Ground taken levels own all) (within : own.Sublist all) (e : Expr) :
    ∀ o ∈ e.occurrences levels, o.Settled taken :=
  fun o member => (plain_expr levels e o member).settled (ground.apart within) ground.ready

theorem settled_optional (ground : Ground taken levels own all) (within : own.Sublist all)
    (e : Option Expr) : ∀ o ∈ optionalOccurrences levels e, o.Settled taken := by
  cases e with
  | none =>
    intro _ member
    cases member
  | some e => exact settled_expr ground within e

theorem settled_initializer {context : Context} {name : Token} {e : Expr}
    (ground : Ground taken levels own all) (within : own.Sublist all) (ordinary : name.Ordinary)
    (fits : e.Fits G ⟨context, announce levels name, some name.lexeme⟩)
    (unassigned : ∀ target ∈ e.assigned, target.lexeme ≠ name.lexeme) :
    ∀ o ∈ e.occurrences (announce levels name), o.Settled taken := by
  intro o member
  have apart := (ground.apart within).announce name
  cases plain_expr _ e o member with
  | use own used =>
    refine ⟨apart, fun level innermost pending => ?_⟩
    have inner : announce levels name ≠ [] := by
      intro empty
      rw [empty] at innermost
      cases innermost
    exact unused_in_expr e fits rfl inner ordinary unassigned _ used _ member
      (ground.ready.pending innermost pending)
  | mark own token => exact True.intro

theorem settled_heritage (ground : Ground taken levels own all) (within : own.Sublist all)
    (superclass : Option Variable) :
    ∀ o ∈ heritageOccurrences levels superclass, o.Settled taken :=
  fun o member => (plain_heritage levels superclass o member).settled (ground.apart within)
    ground.ready

theorem ordinary_of_fit {context : Context} {body : List Stmt}
    (fit : StmtsFit G context levels body) :
    ∀ name ∈ body.flatMap Stmt.declared, name.Ordinary := by
  induction body generalizing levels with
  | nil =>
    intro _ member
    cases member
  | cons s rest ih =>
    rw [List.flatMap_cons, List.forall_mem_append]
    exact ⟨ordinary_of_fits fit.1, ih fit.2⟩

def Unassigned (initializers : List (Token × Expr)) : Prop :=
  ∀ entry ∈ initializers, ∀ target ∈ entry.2.assigned, target.lexeme ≠ entry.1.lexeme

mutual

theorem settled_stmt {context : Context} {levels : List Level} (s : Stmt)
    (fits : s.Fits G context levels) (ground : Ground taken levels s.declared s.declarations)
    (unassigned : Unassigned s.initializers) : ∀ o ∈ s.occurrences levels, o.Settled taken := by
  have within := declared_sublist s
  match s with
  | .expression _ e | .print _ e => exact settled_expr ground within e
  | .var _ name none =>
    simp only [Stmt.occurrences, optionalOccurrences, List.forall_mem_singleton]
    exact True.intro
  | .var _ name (some e) =>
    simp only [Stmt.initializers, Unassigned, List.forall_mem_singleton] at unassigned
    simp only [Stmt.occurrences, List.forall_mem_cons]
    exact ⟨True.intro, settled_initializer ground within fits.2.1.ordinary fits.2.2 unassigned⟩
  | .block id body =>
    simp only [Stmt.occurrences, List.forall_mem_cons]
    refine ⟨True.intro, settled_stmts body fits.2 ?_ unassigned⟩
    exact ground.push rfl rfl (ordinary_of_fit fits.2)
  | .branch _ condition yes none =>
    simp only [Stmt.occurrences, List.forall_mem_append]
    exact ⟨settled_expr ground within condition, settled_stmt yes fits.2.1 ground unassigned⟩
  | .branch _ condition yes (some no) =>
    obtain ⟨tested, ⟨chosen, silent⟩, other, _⟩ := fits
    simp only [Unassigned, Stmt.initializers, List.forall_mem_append] at unassigned
    simp only [Stmt.occurrences, List.forall_mem_append]
    have after := ground.right (declared_sublist yes)
    simp only [silent, addAll, List.foldl_nil] at after ⊢
    exact ⟨⟨settled_expr ground within condition,
      settled_stmt yes chosen (ground.left (declared_sublist no)) unassigned.1⟩,
      settled_stmt no other after unassigned.2⟩
  | .loop _ condition body =>
    simp only [Stmt.occurrences, List.forall_mem_append]
    exact ⟨settled_expr ground within condition, settled_stmt body fits.2.1 ground unassigned⟩
  | .function decl =>
    have named : Ground taken levels ([decl.name] ++ [])
      ([decl.name] ++ decl.declarations) := ground
    have inner : Ground taken (add levels decl.name) [] decl.declarations :=
      named.right (List.Sublist.refl _)
    simp only [Stmt.occurrences, List.forall_mem_cons]
    exact ⟨True.intro, settled_function decl fits.2.2 inner unassigned⟩
  | .returns _ keyword value =>
    simp only [Stmt.occurrences, List.forall_mem_cons]
    exact ⟨True.intro, settled_optional ground within value⟩
  | .classDecl _ name superclass methods =>
    have named : Ground taken levels ([name] ++ [])
      ([name] ++ methodsDeclarations methods) := ground
    have inner : Ground taken (add levels name) [] (methodsDeclarations methods) :=
      named.right (List.Sublist.refl _)
    simp only [Stmt.occurrences, List.forall_mem_cons, List.forall_mem_append]
    exact ⟨True.intro, True.intro, settled_heritage inner (List.nil_sublist _) superclass,
      settled_methods methods fits.2.2.2 (inner.methods superclass) unassigned⟩

theorem settled_stmts {context : Context} {levels : List Level} (body : List Stmt)
    (fit : StmtsFit G context levels body)
    (ground : Ground taken levels (body.flatMap Stmt.declared) (stmtsDeclarations body))
    (unassigned : Unassigned (stmtsInitializers body)) :
    ∀ o ∈ stmtsOccurrences levels body, o.Settled taken := by
  match body with
  | [] =>
    intro _ member
    cases member
  | s :: rest =>
    rw [List.flatMap_cons, stmtsDeclarations] at ground
    simp only [Unassigned, stmtsInitializers, List.forall_mem_append] at unassigned
    simp only [stmtsOccurrences, List.forall_mem_append]
    exact ⟨settled_stmt s fit.1 (ground.left (flatMap_declared_sublist rest)) unassigned.1,
      settled_stmts rest fit.2 (ground.right (declared_sublist s)) unassigned.2⟩

theorem settled_function {context : Context} {levels : List Level} (decl : FunctionDecl)
    (fits : decl.Fits G context levels) (ground : Ground taken levels [] decl.declarations)
    (unassigned : Unassigned decl.initializers) :
    ∀ o ∈ decl.occurrences levels, o.Settled taken := by
  match decl with
  | .mk id name params body =>
    obtain ⟨_, params_fit, fit⟩ := fits
    have opened : Ground taken (⟨functionOrigin id params body, []⟩ :: levels)
        (params ++ body.flatMap Stmt.declared) (params ++ stmtsDeclarations body) := by
      apply ground.push
      · simp [functionOrigin, Origin.names, namesOf]
      · rfl
      · exact List.forall_mem_append.mpr
          ⟨fun param member => (params_fit param member).1, ordinary_of_fit fit⟩
    simp only [FunctionDecl.occurrences, List.forall_mem_cons, List.forall_mem_append,
      List.forall_mem_map]
    exact ⟨True.intro, True.intro, fun _ _ => True.intro,
      settled_stmts body fit (opened.right (List.Sublist.refl _)) unassigned⟩

theorem settled_methods {enclosingClass : ClassContext} {levels : List Level}
    (methods : List FunctionDecl) (fit : MethodsFit G enclosingClass levels methods)
    (ground : Ground taken (receiverLevel :: levels) [] (methodsDeclarations methods))
    (unassigned : Unassigned (methodsInitializers methods)) :
    ∀ o ∈ methodsOccurrences (receiverLevel :: levels) methods, o.Settled taken := by
  match methods with
  | [] =>
    intro _ member
    cases member
  | m :: rest =>
    simp only [Unassigned, methodsInitializers, List.forall_mem_append] at unassigned
    simp only [methodsOccurrences, List.forall_mem_append]
    have split : Ground taken (receiverLevel :: levels) ([] ++ [])
      (m.declarations ++ methodsDeclarations rest) := ground
    exact ⟨settled_function m fit.1 (split.left (List.nil_sublist _)) unassigned.1,
      settled_methods rest fit.2 (split.right (List.nil_sublist _)) unassigned.2⟩

end

/-- In an accepted program that declares no name twice and none of those given, and that assigns no
variable in its own initializer, all uses are settled. -/
theorem settled_of_accepted {given : List String} {program : List Stmt} {ds : Distances}
    (formed : StmtsFormed program) (accepted : distancesOf program = .ok ds)
    (once : (given ++ (stmtsDeclarations program).map (·.lexeme)).Nodup)
    (unassigned : Unassigned (stmtsInitializers program)) :
    ∀ o ∈ occurrencesOf program, o.Settled (given ++ namesOf program) := by
  have fit : StmtsFit (fun _ => True) ⟨.topLevel, .outside⟩ [] program :=
    fit_of_accepted formed accepted fun _ _ => True.intro
  refine settled_stmts program fit ⟨.nil, .nil, fun name => ?_⟩ unassigned
  have bound := List.nodup_iff_count.mp once name
  simp only [List.count_append, namesOf, declaredAround, List.flatMap_nil, List.count_nil] at bound ⊢
  omega

end LoxMachine.Static
