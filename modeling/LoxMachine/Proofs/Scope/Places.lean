import LoxMachine.Proofs.Scope.Accepted
import LoxMachine.Proofs.Scope.Resolves

namespace LoxMachine.Static

def Declared (levels : List Level) : Prop :=
  ∀ level ∈ levels, ∀ name, level.table.contains name = true → name ∈ level.origin.names

theorem Declared.push {levels : List Level} (declared : Declared levels) {level : Level}
    (own : ∀ name, level.table.contains name = true → name ∈ level.origin.names) :
    Declared (level :: levels) := by
  intro other member
  rcases List.mem_cons.mp member with rfl | outer
  · exact own
  · exact declared other outer

theorem Declared.stage {levels : List Level} {name : String} (declared : Declared levels)
    (named : ∀ level ∈ levels.head?, name ∈ level.origin.names) (s : Stage) :
    Declared (stage levels name s) := by
  cases levels with
  | nil => exact declared
  | cons level outer =>
    refine Declared.push (fun other member => declared other (List.mem_cons_of_mem _ member)) ?_
    intro query member
    rw [Table.contains_put, Bool.or_eq_true, beq_iff_eq] at member
    rcases member with rfl | older
    · exact named level rfl
    · exact declared level List.mem_cons_self query older

theorem Declared.add {levels : List Level} {name : Token} (declared : Declared levels)
    (covers : Covers levels [name]) : Declared (add levels name) := by
  have named : ∀ level ∈ levels.head?, name.lexeme ∈ level.origin.names :=
    fun level member => covers level member name (List.mem_singleton_self name)
  refine (declared.stage named .declared).stage ?_ .defined
  cases levels with
  | nil => exact named
  | cons level outer =>
    rintro _ ⟨⟩
    exact named level rfl

theorem Declared.addAll {levels : List Level} {names : List Token} (declared : Declared levels)
    (covers : Covers levels names) : Declared (addAll levels names) := by
  induction names generalizing levels with
  | nil => exact declared
  | cons name rest ih =>
    refine ih (declared.add fun level member other here => ?_) ?_
    · exact covers level member other (List.mem_cons.mpr (.inl (List.mem_singleton.mp here)))
    · exact Covers.stage (Covers.stage fun level member other here =>
        covers level member other (List.mem_cons_of_mem _ here))

theorem declared_receiver : ∀ name, receiverLevel.table.contains name = true →
    name ∈ receiverLevel.origin.names := by
  intro name member
  simpa [receiverLevel, Table.contains, Table.get?, Origin.names] using member

theorem declared_heritage : ∀ name, heritageLevel.table.contains name = true →
    name ∈ heritageLevel.origin.names := by
  intro name member
  simpa [heritageLevel, Table.contains, Table.get?, Origin.names] using member

variable {G : Occurrence → Prop} {K : NodeId → Prop}

structure Standing (G : Occurrence → Prop) (levels : List Level) : Prop where
  declared : Declared levels
  known : ∀ level ∈ levels, level.origin.Known G

theorem Standing.top : Standing G [] := by
  constructor
  · exact fun _ absent => nomatch absent
  · exact fun _ absent => nomatch absent

theorem Standing.push {levels : List Level} (standing : Standing G levels) {level : Level}
    (own : ∀ name, level.table.contains name = true → name ∈ level.origin.names)
    (known : level.origin.Known G) : Standing G (level :: levels) := by
  refine ⟨standing.declared.push own, fun other member => ?_⟩
  rcases List.mem_cons.mp member with rfl | outer
  · exact known
  · exact standing.known other outer

theorem known_stage {levels : List Level} (known : ∀ level ∈ levels, level.origin.Known G)
    (name : String) (s : Stage) : ∀ level ∈ stage levels name s, level.origin.Known G := by
  cases levels with
  | nil => exact known
  | cons level outer =>
    intro other member
    rcases List.mem_cons.mp member with rfl | later
    · exact known level List.mem_cons_self
    · exact known other (List.mem_cons_of_mem _ later)

theorem Standing.announce {levels : List Level} {name : Token} (standing : Standing G levels)
    (declarable : Declarable levels name) : Standing G (announce levels name) :=
  ⟨standing.declared.stage declarable.named .declared, known_stage standing.known _ _⟩

theorem Standing.add {levels : List Level} {name : Token} (standing : Standing G levels)
    (declarable : Declarable levels name) : Standing G (add levels name) := by
  refine ⟨standing.declared.add fun level member other here => ?_,
    known_stage (known_stage standing.known _ _) _ _⟩
  rw [List.mem_singleton.mp here]
  exact declarable.named level member

theorem Standing.parameters {levels : List Level} (standing : Standing G levels) {id : NodeId}
    {params : List Token} {body : List Stmt} (known : G (.scope (functionOrigin id params body))) :
    Standing G (functionLevels levels id params body) := by
  have opened : Standing G (⟨functionOrigin id params body, []⟩ :: levels) :=
    standing.push (fun _ absent => nomatch absent) known
  have covers : Covers (⟨functionOrigin id params body, []⟩ :: levels) params := by
    rintro _ ⟨⟩ name here
    exact List.mem_append_left _ (List.mem_map_of_mem here)
  refine ⟨opened.declared.addAll covers, ?_⟩
  have kept : ∀ (names : List Token) (around : List Level),
      (∀ level ∈ around, level.origin.Known G) →
      ∀ level ∈ Static.addAll around names, level.origin.Known G := by
    intro names
    induction names with
    | nil => exact fun _ known => known
    | cons name rest ih => exact fun around known => ih _ (known_stage (known_stage known _ _) _ _)
  exact kept params _ opened.known

theorem Standing.methods {levels : List Level} (standing : Standing G levels)
    (superclass : Option Variable) :
    Standing G (receiverLevel :: classLevels levels superclass) := by
  refine Standing.push ?_ declared_receiver True.intro
  unfold classLevels
  split
  · exact standing.push declared_heritage True.intro
  · exact standing

theorem declared_of_fits {context : Context} {levels : List Level} {s : Stmt}
    (fits : s.Fits G context levels) :
    s.declared = [] ∨ ∃ name, s.declared = [name] ∧ Declarable levels name := by
  cases s with
  | var id name initializer => exact .inr ⟨name, rfl, fits.2.1⟩
  | function decl => exact .inr ⟨decl.name, rfl, fits.2.1⟩
  | classDecl id name superclass methods => exact .inr ⟨name, rfl, fits.2.1⟩
  | branch id condition yes no =>
    cases no with
    | none => exact .inl fits.2.2
    | some no =>
      refine .inl ?_
      rw [Stmt.declared, fits.2.1.2, fits.2.2.2]
      rfl
  | loop id condition body => exact .inl fits.2.2
  | expression | print | block | returns => exact .inl rfl

theorem ordinary_of_fits {context : Context} {levels : List Level} {s : Stmt}
    (fits : s.Fits G context levels) : ∀ name ∈ s.declared, name.Ordinary := by
  rcases declared_of_fits fits with none | ⟨name, one, declarable⟩
  · rw [none]
    intro _ member
    cases member
  · rw [one, List.forall_mem_singleton]
    exact declarable.ordinary

theorem Standing.after {context : Context} {levels : List Level} {s : Stmt}
    (standing : Standing G levels) (fits : s.Fits G context levels) :
    Standing G (addAll levels s.declared) := by
  rcases declared_of_fits fits with none | ⟨name, one, declarable⟩
  · rw [none]
    exact standing
  · rw [one]
    exact standing.add declarable

theorem fresh_of_fit {context : Context} {levels : List Level} {body : List Stmt}
    (fit : StmtsFit G context levels body) : Fresh levels (body.flatMap Stmt.declared) := by
  induction body generalizing levels with
  | nil => exact fun _ _ => ⟨List.nodup_nil, fun _ absent => nomatch absent⟩
  | cons s rest ih =>
    have later := ih fit.2
    rw [List.flatMap_cons]
    rcases declared_of_fits fit.1 with none | ⟨name, one, declarable⟩
    · rw [none] at later ⊢
      exact later
    · rw [one] at later ⊢
      exact .cons declarable.fresh later

theorem nodup_block {context : Context} {levels : List Level} {id : NodeId} {body : List Stmt}
    (fit : StmtsFit G context (blockLevels levels id body) body) : (namesOf body).Nodup :=
  (fresh_of_fit fit _ rfl).1

theorem nodup_function {context : Context} {levels : List Level} {id : NodeId} {params : List Token}
    {body : List Stmt} (distinct : (params.map (·.lexeme)).Nodup)
    (fit : StmtsFit G context (functionLevels levels id params body) body) :
    (functionOrigin id params body).names.Nodup := by
  have first : Fresh (⟨functionOrigin id params body, []⟩ :: levels) params := by
    rintro _ ⟨⟩
    exact ⟨distinct, fun _ _ => rfl⟩
  have both := first.append (fresh_of_fit fit)
  have all := (both _ rfl).1
  rwa [List.map_append] at all

def Occurrence.id? : Occurrence → Option NodeId
  | use id _ _ | «variable» id _ _ | parameter id _ _ | mark id _ => some id
  | scope origin => origin.id?
  | callable _ _ => none

def Occurrence.levels : Occurrence → List Level
  | use _ _ levels | «variable» _ _ levels | parameter _ _ levels | callable _ levels => levels
  | mark _ _ | scope _ => []

def Occurrence.declared? : Occurrence → Option (Origin × String)
  | «variable» _ name levels | parameter _ name levels | callable name levels =>
    some (originOf levels, name.lexeme)
  | use _ _ _ | mark _ _ | scope _ => none

/-- An occurrence at a known node, in known scopes. -/
structure Occurrence.Placed (K : NodeId → Prop) (G : Occurrence → Prop) (o : Occurrence) : Prop where
  numbered : ∀ i, o.id? = some i → K i
  standing : Standing G o.levels
  ordinary : ∀ origin name, o.declared? = some (origin, name) → name ≠ "this" ∧ name ≠ "super"
  function : ∀ i name levels, o = .parameter i name levels →
    ∃ names, originOf levels = .function i names
  distinct : ∀ origin, o = .scope origin → origin.names.Nodup

theorem Occurrence.Placed.mono {K L : NodeId → Prop} {G H : Occurrence → Prop}
    {o : Occurrence} (ids : ∀ i, K i → L i) (all : ∀ o, G o → H o) (placed : o.Placed K G) :
    o.Placed L H :=
  { placed with
    numbered := fun i own => ids i (placed.numbered i own)
    standing := ⟨placed.standing.declared,
      fun level member => (placed.standing.known level member).mono all⟩ }

theorem Occurrence.id_of_node {o : Occurrence} {id : NodeId} (node : o.node? = some id) :
    o.id? = some id := by
  cases o with
  | use | «variable» | scope => exact node
  | parameter | callable | mark => cases node

inductive Occurrence.Plain (levels : List Level) (ids : List NodeId) : Occurrence → Prop
  | use {id} (own : id ∈ ids) (name : Token) : Plain levels ids (.use id name levels)
  | mark {id} (own : id ∈ ids) (token : Token) : Plain levels ids (.mark id token)

theorem Occurrence.Plain.mono {levels : List Level} {ids more : List NodeId} {o : Occurrence}
    (all : ∀ i ∈ ids, i ∈ more) (plain : o.Plain levels ids) : o.Plain levels more := by
  cases plain with
  | use own name => exact .use (all _ own) name
  | mark own token => exact .mark (all _ own) token

theorem Occurrence.Plain.placed {levels : List Level} {ids : List NodeId} {o : Occurrence}
    (plain : o.Plain levels ids) (standing : Standing G levels) (own : ∀ i ∈ ids, K i) :
    o.Placed K G := by
  cases plain with
  | use here name =>
    refine ⟨?_, standing, ?_, ?_, ?_⟩
    · rintro _ ⟨⟩
      exact own _ here
    all_goals
      intros
      contradiction
  | mark here token =>
    refine ⟨?_, .top, ?_, ?_, ?_⟩
    · rintro _ ⟨⟩
      exact own _ here
    all_goals
      intros
      contradiction

mutual

theorem plain_expr (levels : List Level) (e : Expr) :
    ∀ o ∈ e.occurrences levels, o.Plain levels e.ids := by
  match e with
  | .literal _ _ => exact fun _ absent => nomatch absent
  | .read use =>
    simp only [Expr.occurrences, List.forall_mem_singleton]
    exact .use List.mem_cons_self use.name
  | .assign id name value =>
    simp only [Expr.occurrences, List.forall_mem_append, List.forall_mem_singleton]
    exact ⟨fun o member => (plain_expr levels value o member).mono fun _ => List.mem_append_left _,
      .use (List.mem_append_right _ List.mem_cons_self) name⟩
  | .unary id operator right =>
    simp only [Expr.occurrences, List.forall_mem_cons]
    exact ⟨.mark (List.mem_append_right _ List.mem_cons_self) operator,
      fun o member => (plain_expr levels right o member).mono fun _ => List.mem_append_left _⟩
  | .binary id left operator right | .logical id left operator right =>
    simp only [Expr.occurrences, List.forall_mem_cons, List.forall_mem_append]
    exact ⟨.mark (List.mem_append_right _ List.mem_cons_self) operator,
      fun o member => (plain_expr levels left o member).mono
        fun _ here => List.mem_append_left _ (List.mem_append_left _ here),
      fun o member => (plain_expr levels right o member).mono
        fun _ here => List.mem_append_left _ (List.mem_append_right _ here)⟩
  | .grouping id inner =>
    exact fun o member => (plain_expr levels inner o member).mono fun _ => List.mem_append_left _
  | .call id callee paren arguments =>
    simp only [Expr.occurrences, List.forall_mem_cons, List.forall_mem_append]
    exact ⟨.mark (List.mem_append_right _ List.mem_cons_self) paren,
      fun o member => (plain_expr levels callee o member).mono
        fun _ here => List.mem_append_left _ (List.mem_append_left _ here),
      fun o member => (plain_exprs levels arguments o member).mono
        fun _ here => List.mem_append_left _ (List.mem_append_right _ here)⟩
  | .get id object name =>
    simp only [Expr.occurrences, List.forall_mem_cons]
    exact ⟨.mark (List.mem_append_right _ List.mem_cons_self) name,
      fun o member => (plain_expr levels object o member).mono fun _ => List.mem_append_left _⟩
  | .set id object name value =>
    simp only [Expr.occurrences, List.forall_mem_cons, List.forall_mem_append]
    exact ⟨.mark (List.mem_append_right _ List.mem_cons_self) name,
      fun o member => (plain_expr levels value o member).mono
        fun _ here => List.mem_append_left _ (List.mem_append_left _ here),
      fun o member => (plain_expr levels object o member).mono
        fun _ here => List.mem_append_left _ (List.mem_append_right _ here)⟩
  | .this id keyword =>
    simp only [Expr.occurrences, List.forall_mem_singleton]
    exact .use List.mem_cons_self keyword
  | .super id keyword method =>
    simp only [Expr.occurrences, List.forall_mem_cons]
    exact ⟨.use List.mem_cons_self keyword, .mark List.mem_cons_self method,
      fun _ absent => nomatch absent⟩

theorem plain_exprs (levels : List Level) (es : List Expr) :
    ∀ o ∈ exprsOccurrences levels es, o.Plain levels (exprsIds es) := by
  match es with
  | [] => exact fun _ absent => nomatch absent
  | e :: rest =>
    simp only [exprsOccurrences, List.forall_mem_append]
    exact ⟨fun o member => (plain_expr levels e o member).mono fun _ => List.mem_append_left _,
      fun o member => (plain_exprs levels rest o member).mono fun _ => List.mem_append_right _⟩

end

theorem plain_optional (levels : List Level) (e : Option Expr) :
    ∀ o ∈ optionalOccurrences levels e, o.Plain levels (optionalIds e) := by
  cases e with
  | none => exact fun _ absent => nomatch absent
  | some e => exact plain_expr levels e

theorem plain_heritage (levels : List Level) (superclass : Option Variable) :
    ∀ o ∈ heritageOccurrences levels superclass,
      o.Plain levels (superclass.map (·.id)).toList := by
  cases superclass with
  | none => exact fun _ absent => nomatch absent
  | some use =>
    simp only [heritageOccurrences, List.forall_mem_singleton]
    exact .use List.mem_cons_self use.name

theorem placed_mark {id : NodeId} {token : Token} (own : K id) : (Occurrence.mark id token).Placed K G := by
  refine ⟨?_, .top, ?_, ?_, ?_⟩
  · rintro _ ⟨⟩
    exact own
  all_goals
    intros
    contradiction

theorem placed_variable {id : NodeId} {name : Token} {levels : List Level} (own : K id)
    (standing : Standing G levels) (ordinary : name.Ordinary) :
    (Occurrence.variable id name levels).Placed K G := by
  refine ⟨?_, standing, ?_, ?_, ?_⟩
  · rintro _ ⟨⟩
    exact own
  · rintro _ _ ⟨⟩
    exact ordinary
  all_goals
    intros
    contradiction

theorem placed_callable {name : Token} {levels : List Level} (standing : Standing G levels)
    (ordinary : name.Ordinary) : (Occurrence.callable name levels).Placed K G := by
  refine ⟨?_, standing, ?_, ?_, ?_⟩
  · rintro _ ⟨⟩
  · rintro _ _ ⟨⟩
    exact ordinary
  all_goals
    intros
    contradiction

theorem placed_scope {origin : Origin} (own : ∀ i, origin.id? = some i → K i)
    (distinct : origin.names.Nodup) : (Occurrence.scope origin).Placed K G := by
  refine ⟨own, .top, ?_, ?_, ?_⟩
  · rintro _ _ ⟨⟩
  · rintro _ _ _ ⟨⟩
  · rintro _ ⟨⟩
    exact distinct

theorem placed_parameter {id : NodeId} {name : Token} {levels : List Level} {names : List String}
    (own : K id) (standing : Standing G levels) (ordinary : name.Ordinary)
    (opened : originOf levels = .function id names) :
    (Occurrence.parameter id name levels).Placed K G := by
  refine ⟨?_, standing, ?_, ?_, ?_⟩
  · rintro _ ⟨⟩
    exact own
  · rintro _ _ ⟨⟩
    exact ordinary
  · rintro _ _ _ ⟨⟩
    exact ⟨names, opened⟩
  · rintro _ ⟨⟩

mutual

/-- What occurs in a statement that fits stands at a node of it, in scopes that the text opens. -/
theorem placed_stmt {context : Context} {levels : List Level} (standing : Standing G levels)
    (s : Stmt) (fits : s.Fits G context levels) (own : ∀ i ∈ s.ids, K i) :
    ∀ o ∈ s.occurrences levels, o.Placed K G := by
  match s with
  | .expression id e | .print id e =>
    simp only [Stmt.ids, List.forall_mem_append] at own
    exact fun o member => (plain_expr levels e o member).placed standing own.1
  | .var id name initializer =>
    obtain ⟨_, declarable, _⟩ := fits
    simp only [Stmt.ids, List.forall_mem_append, List.forall_mem_singleton] at own
    simp only [Stmt.occurrences, List.forall_mem_cons]
    exact ⟨placed_variable own.2 standing declarable.ordinary, fun o member =>
      (plain_optional _ initializer o member).placed (standing.announce declarable) own.1⟩
  | .block id body =>
    obtain ⟨known, fit⟩ := fits
    simp only [Stmt.ids, List.forall_mem_append, List.forall_mem_singleton] at own
    simp only [Stmt.occurrences, List.forall_mem_cons]
    have inner : Standing G (blockLevels levels id body) :=
      standing.push (fun _ absent => nomatch absent) known
    refine ⟨placed_scope ?_ (nodup_block fit), placed_stmts inner body fit own.1⟩
    rintro _ ⟨⟩
    exact own.2
  | .branch id condition yes none =>
    simp only [Stmt.ids, List.forall_mem_append] at own
    simp only [Stmt.occurrences, List.forall_mem_append]
    exact ⟨fun o member => (plain_expr levels condition o member).placed standing own.1.1,
      placed_stmt standing yes fits.2.1 own.1.2⟩
  | .branch id condition yes (some no) =>
    obtain ⟨_, ⟨yes_fits, none_declared⟩, no_fits, _⟩ := fits
    simp only [Stmt.ids, List.forall_mem_append] at own
    simp only [Stmt.occurrences, List.forall_mem_append, none_declared]
    exact ⟨⟨fun o member => (plain_expr levels condition o member).placed standing own.1.1.1,
      placed_stmt standing yes yes_fits own.1.1.2⟩, placed_stmt standing no no_fits own.1.2⟩
  | .loop id condition body =>
    simp only [Stmt.ids, List.forall_mem_append] at own
    simp only [Stmt.occurrences, List.forall_mem_append]
    exact ⟨fun o member => (plain_expr levels condition o member).placed standing own.1.1,
      placed_stmt standing body fits.2.1 own.1.2⟩
  | .function decl =>
    obtain ⟨_, declarable, fits⟩ := fits
    simp only [Stmt.occurrences, List.forall_mem_cons]
    exact ⟨placed_callable standing declarable.ordinary,
      placed_function (standing.add declarable) decl fits own⟩
  | .returns id keyword value =>
    simp only [Stmt.ids, List.forall_mem_append, List.forall_mem_singleton] at own
    simp only [Stmt.occurrences, List.forall_mem_cons]
    exact ⟨placed_mark own.2,
      fun o member => (plain_optional levels value o member).placed standing own.1⟩
  | .classDecl id name superclass methods =>
    obtain ⟨_, declarable, _, fit⟩ := fits
    have inner := standing.add declarable
    simp only [Stmt.ids, List.forall_mem_append, List.forall_mem_singleton] at own
    simp only [Stmt.occurrences, List.forall_mem_cons, List.forall_mem_append]
    exact ⟨placed_mark own.2, placed_callable standing declarable.ordinary,
      fun o member => (plain_heritage _ superclass o member).placed inner own.1.1,
      placed_methods (inner.methods superclass) methods fit own.1.2⟩

theorem placed_stmts {context : Context} {levels : List Level} (standing : Standing G levels)
    (body : List Stmt) (fit : StmtsFit G context levels body) (own : ∀ i ∈ stmtsIds body, K i) :
    ∀ o ∈ stmtsOccurrences levels body, o.Placed K G := by
  match body with
  | [] => exact fun _ absent => nomatch absent
  | s :: rest =>
    simp only [stmtsIds, List.forall_mem_append] at own
    simp only [stmtsOccurrences, List.forall_mem_append]
    exact ⟨placed_stmt standing s fit.1 own.1,
      placed_stmts (standing.after fit.1) rest fit.2 own.2⟩

theorem placed_function {context : Context} {levels : List Level} (standing : Standing G levels)
    (decl : FunctionDecl) (fits : decl.Fits G context levels) (own : ∀ i ∈ decl.ids, K i) :
    ∀ o ∈ decl.occurrences levels, o.Placed K G := by
  match decl with
  | .mk id name params body =>
    obtain ⟨⟨_, known, distinct⟩, params_fit, fit⟩ := fits
    simp only [FunctionDecl.ids, List.forall_mem_append, List.forall_mem_singleton] at own
    simp only [FunctionDecl.occurrences, List.forall_mem_cons, List.forall_mem_append,
      List.forall_mem_map]
    have inner := standing.parameters known
    refine ⟨placed_mark own.2, placed_scope ?_ (nodup_function distinct fit), ?_,
      placed_stmts inner body fit own.1⟩
    · rintro _ ⟨⟩
      exact own.2
    · intro param member
      exact placed_parameter own.2 inner (params_fit param member).1 (originOf_addAll _ params)

theorem placed_methods {enclosingClass : ClassContext} {levels : List Level}
    (standing : Standing G (receiverLevel :: levels)) (methods : List FunctionDecl)
    (fit : MethodsFit G enclosingClass levels methods) (own : ∀ i ∈ methodsIds methods, K i) :
    ∀ o ∈ methodsOccurrences (receiverLevel :: levels) methods, o.Placed K G := by
  match methods with
  | [] => exact fun _ absent => nomatch absent
  | m :: rest =>
    simp only [methodsIds, List.forall_mem_append] at own
    simp only [methodsOccurrences, List.forall_mem_append]
    exact ⟨placed_function standing m fit.1 own.1, placed_methods standing rest fit.2 own.2⟩

end

theorem placed_of_accepted {program : List Stmt} {ds : Distances} (formed : StmtsFormed program)
    (accepted : distancesOf program = .ok ds) (own : ∀ i ∈ stmtsIds program, K i) :
    ∀ o ∈ occurrencesOf program, o.Placed K (· ∈ occurrencesOf program) :=
  placed_stmts .top program (fit_of_accepted formed accepted fun _ here => here) own

section Count

variable (origin : Origin) (name : String)

def Occurrence.declares (o : Occurrence) : Bool := o.declared? == some (origin, name)

def Occurrence.opened : Occurrence → Nat
  | scope own => if own = origin then own.names.count name else 0
  | _ => 0

def openedCount : List Occurrence → Nat
  | [] => 0
  | o :: rest => o.opened origin name + openedCount rest

/-- The name is declared in the scope as often as it is among the names of the scopes opened, and
some times more. -/
def Balanced (more : Nat) (occurrences : List Occurrence) : Prop :=
  occurrences.countP (·.declares origin name) = more + openedCount origin name occurrences

variable {origin name}

theorem openedCount_append (first second : List Occurrence) :
    openedCount origin name (first ++ second) =
      openedCount origin name first + openedCount origin name second := by
  induction first with
  | nil => exact (Nat.zero_add _).symm
  | cons o rest ih => rw [List.cons_append, openedCount, openedCount, ih, Nat.add_assoc]

theorem opened_le_openedCount {o : Occurrence} {occurrences : List Occurrence}
    (member : o ∈ occurrences) : o.opened origin name ≤ openedCount origin name occurrences := by
  induction member with
  | head rest => exact Nat.le_add_right _ _
  | tail first _ ih => exact Nat.le_trans ih (Nat.le_add_left _ _)

theorem Balanced.nil : Balanced origin name 0 [] := rfl

theorem Balanced.append {more extra : Nat} {first second : List Occurrence}
    (one : Balanced origin name more first) (two : Balanced origin name extra second) :
    Balanced origin name (more + extra) (first ++ second) := by
  unfold Balanced at one two ⊢
  rw [List.countP_append, openedCount_append, one, two]
  omega

theorem Balanced.cons {more : Nat} {o : Occurrence} {rest : List Occurrence}
    (balanced : Balanced origin name more rest) (undeclared : o.declared? = none)
    (unopened : o.opened origin name = 0) : Balanced origin name more (o :: rest) := by
  unfold Balanced at balanced ⊢
  have plain : o.declares origin name = false := by
    rw [Occurrence.declares, undeclared]
    rfl
  rw [List.countP_cons, openedCount, balanced, plain, unopened, Nat.zero_add]
  rfl

theorem balanced_plain {levels : List Level} {ids : List NodeId} {occurrences : List Occurrence}
    (plain : ∀ o ∈ occurrences, o.Plain levels ids) : Balanced origin name 0 occurrences := by
  induction occurrences with
  | nil => exact .nil
  | cons o rest ih =>
    rw [List.forall_mem_cons] at plain
    obtain ⟨here, later⟩ := plain
    cases here with
    | use | mark => exact (ih later).cons rfl rfl

def ownCount (origin : Origin) (name : String) (levels : List Level) (names : List Token) : Nat :=
  if originOf levels = origin then (names.map (·.lexeme)).count name else 0

theorem ownCount_nil (levels : List Level) : ownCount origin name levels [] = 0 := by
  unfold ownCount
  split <;> rfl

theorem ownCount_append (levels : List Level) (first second : List Token) :
    ownCount origin name levels (first ++ second) =
      ownCount origin name levels first + ownCount origin name levels second := by
  unfold ownCount
  split
  · rw [List.map_append, List.count_append]
  · rfl

theorem ownCount_addAll (levels : List Level) (added names : List Token) :
    ownCount origin name (addAll levels added) names = ownCount origin name levels names := by
  rw [ownCount, originOf_addAll, ownCount]

theorem Balanced.declaration {levels : List Level} {token : Token} {o : Occurrence}
    {rest : List Occurrence} (balanced : Balanced origin name 0 rest)
    (declared : o.declared? = some (originOf levels, token.lexeme))
    (unopened : o.opened origin name = 0) :
    Balanced origin name (ownCount origin name levels [token]) (o :: rest) := by
  unfold Balanced at balanced ⊢
  rw [List.countP_cons, openedCount, balanced, unopened, Occurrence.declares,
    declared, ownCount]
  by_cases here : originOf levels = origin
  · by_cases same : token.lexeme = name
    · simp [here, same, Nat.add_comm]
    · simp [here, same]
  · simp [here]

theorem balanced_parameters {id : NodeId} {params : List Token} {levels : List Level} :
    Balanced origin name (ownCount origin name levels params)
      (params.map (.parameter id · levels)) := by
  induction params with
  | nil =>
    rw [ownCount_nil]
    exact .nil
  | cons param rest ih =>
    have first : Balanced origin name (ownCount origin name levels [param])
        [.parameter id param levels] := Balanced.nil.declaration rfl rfl
    have both := first.append ih
    rw [← ownCount_append] at both
    exact both

theorem Balanced.scope {own : Origin} {rest : List Occurrence}
    (balanced : Balanced origin name (if own = origin then own.names.count name else 0) rest) :
    Balanced origin name 0 (.scope own :: rest) := by
  unfold Balanced at balanced ⊢
  rw [List.countP_cons, openedCount, balanced]
  simp only [Occurrence.declares, Occurrence.declared?, Occurrence.opened]
  rw [Nat.zero_add]
  rfl

mutual

/-- Every name that a statement declares in the scope around it is one more than those in the
scopes opened inside. -/
theorem balanced_stmt (levels : List Level) (s : Stmt) :
    Balanced origin name (ownCount origin name levels s.declared) (s.occurrences levels) := by
  match s with
  | .expression id e | .print id e =>
    rw [Stmt.declared, ownCount_nil]
    exact balanced_plain (plain_expr levels e)
  | .var id token initializer =>
    exact (balanced_plain (plain_optional _ initializer)).declaration rfl rfl
  | .block id body =>
    have inner := balanced_stmts (blockLevels levels id body) body
    rw [Stmt.declared, ownCount_nil]
    exact inner.scope
  | .branch id condition yes none =>
    have both := (balanced_plain (plain_expr levels condition)).append (balanced_stmt levels yes)
    rw [Nat.zero_add] at both
    exact both
  | .branch id condition yes (some no) =>
    have last := balanced_stmt (addAll levels yes.declared) no
    rw [ownCount_addAll] at last
    have all := ((balanced_plain (plain_expr levels condition)).append
      (balanced_stmt levels yes)).append last
    rw [Nat.zero_add, ← ownCount_append] at all
    exact all
  | .loop id condition body =>
    have both := (balanced_plain (plain_expr levels condition)).append (balanced_stmt levels body)
    rw [Nat.zero_add] at both
    exact both
  | .function decl => exact (balanced_function _ decl).declaration rfl rfl
  | .returns id keyword value =>
    rw [Stmt.declared, ownCount_nil]
    exact (balanced_plain (plain_optional levels value)).cons rfl rfl
  | .classDecl id token superclass methods =>
    have inner := (balanced_plain (plain_heritage (add levels token) superclass)).append
      (balanced_methods (receiverLevel :: classLevels (add levels token) superclass) methods)
    exact (inner.declaration rfl rfl).cons rfl rfl

theorem balanced_stmts (levels : List Level) (body : List Stmt) :
    Balanced origin name (ownCount origin name levels (body.flatMap Stmt.declared))
      (stmtsOccurrences levels body) := by
  match body with
  | [] =>
    rw [List.flatMap_nil, ownCount_nil]
    exact .nil
  | s :: rest =>
    have later := balanced_stmts (addAll levels s.declared) rest
    rw [ownCount_addAll] at later
    rw [List.flatMap_cons, ownCount_append]
    exact (balanced_stmt levels s).append later

theorem balanced_function (levels : List Level) (decl : FunctionDecl) :
    Balanced origin name 0 (decl.occurrences levels) := by
  match decl with
  | .mk id token params body =>
    have opened : originOf (functionLevels levels id params body) = functionOrigin id params body :=
      originOf_addAll _ params
    have declared : Balanced origin name _
        (params.map (.parameter id · (functionLevels levels id params body))) := balanced_parameters
    have inner := declared.append (balanced_stmts (functionLevels levels id params body) body)
    rw [← ownCount_append, ownCount, opened, List.map_append] at inner
    exact inner.scope.cons rfl rfl

theorem balanced_methods (levels : List Level) (methods : List FunctionDecl) :
    Balanced origin name 0 (methodsOccurrences levels methods) := by
  match methods with
  | [] => exact .nil
  | m :: rest => exact (balanced_function levels m).append (balanced_methods levels rest)

end

theorem opened_none {occurrences : List Occurrence} {id : NodeId} (opener : origin.id? = some id)
    (other : id ∉ nodeIds occurrences) : openedCount origin name occurrences = 0 := by
  induction occurrences with
  | nil => rfl
  | cons o rest ih =>
    have split : nodeIds (o :: rest) = nodeIds [o] ++ nodeIds rest := nodeIds_append [o] rest
    rw [split, List.mem_append, not_or] at other
    rw [openedCount, ih other.2]
    cases o with
    | scope own =>
      have differ : own ≠ origin := by
        rintro rfl
        exact other.1 (mem_nodeIds List.mem_cons_self opener)
      rw [Occurrence.opened, if_neg differ]
    | _ => rfl

theorem opened_le {occurrences : List Occurrence} {id : NodeId} (opener : origin.id? = some id)
    (distinct : (nodeIds occurrences).Nodup) :
    openedCount origin name occurrences ≤ origin.names.count name := by
  induction occurrences with
  | nil => exact Nat.zero_le _
  | cons o rest ih =>
    have split : nodeIds (o :: rest) = nodeIds [o] ++ nodeIds rest := nodeIds_append [o] rest
    rw [split, List.nodup_append] at distinct
    obtain ⟨_, others, apart⟩ := distinct
    have later := ih others
    rw [openedCount]
    cases o with
    | scope own =>
      by_cases same : own = origin
      · subst same
        have none : openedCount own name rest = 0 := opened_none opener fun inside =>
          apart id (mem_nodeIds List.mem_cons_self opener) id inside rfl
        refine Nat.le_of_eq ?_
        rw [none, Occurrence.opened, if_pos rfl, Nat.add_zero]
      · rw [Occurrence.opened, if_neg same, Nat.zero_add]
        exact later
    | _ =>
      change 0 + openedCount origin name rest ≤ _
      rw [Nat.zero_add]
      exact later

end Count

theorem eq_of_countP_le_one {α : Type} {p : α → Bool} {list : List α} {a b : α}
    (few : list.countP p ≤ 1) (one : a ∈ list) (other : b ∈ list) (first : p a = true)
    (second : p b = true) : a = b := by
  induction list with
  | nil => cases one
  | cons head rest ih =>
    rw [List.countP_cons] at few
    rcases List.mem_cons.mp one with rfl | later <;> rcases List.mem_cons.mp other with rfl | later'
    · rfl
    · have more := List.countP_pos_iff.mpr ⟨b, later', second⟩
      rw [if_pos first] at few
      omega
    · have more := List.countP_pos_iff.mpr ⟨a, later, first⟩
      rw [if_pos second] at few
      omega
    · exact ih (Nat.le_trans (Nat.le_add_right _ _) few) later later'

theorem balanced_program {origin : Origin} {name : String} {id : NodeId}
    (opener : origin.id? = some id) (program : List Stmt) :
    Balanced origin name 0 (occurrencesOf program) := by
  have balanced : Balanced origin name _ (occurrencesOf program) := balanced_stmts [] program
  have top : originOf [] ≠ origin := by
    rintro rfl
    cases opener
  rwa [ownCount, if_neg top] at balanced

theorem known_of_declared {occurrences : List Occurrence} {o : Occurrence} {origin : Origin}
    {name : String} {id : NodeId} (placed : o.Placed K (· ∈ occurrences))
    (declared : o.declared? = some (origin, name)) (opener : origin.id? = some id) :
    .scope origin ∈ occurrences := by
  have around : originOf o.levels = origin := by
    cases o with
    | «variable» | parameter | callable =>
      cases declared
      rfl
    | use | mark | scope => cases declared
  have known := placed.standing.known
  cases levels : o.levels with
  | nil =>
    rw [levels] at around
    subst around
    cases opener
  | cons level outer =>
    rw [levels] at around known
    have here := known level List.mem_cons_self
    have same : level.origin = origin := around
    rw [same] at here
    cases origin with
    | block | function => exact here
    | global | receiver | heritage => cases opener

theorem declaration_unique {program : List Stmt} {o other : Occurrence} {origin : Origin}
    {name : String} {id : NodeId} (opener : origin.id? = some id)
    (placed : ∀ o ∈ occurrencesOf program, o.Placed K (· ∈ occurrencesOf program))
    (distinct : (nodeIds (occurrencesOf program)).Nodup) (one : o ∈ occurrencesOf program)
    (two : other ∈ occurrencesOf program) (declared : o.declared? = some (origin, name))
    (again : other.declared? = some (origin, name)) : o = other := by
  have opened := known_of_declared (placed o one) declared opener
  have names := (placed _ opened).distinct origin rfl
  have total : (occurrencesOf program).countP (·.declares origin name) ≤ 1 := by
    have balanced := @balanced_program origin name id opener program
    unfold Balanced at balanced
    rw [balanced, Nat.zero_add]
    exact Nat.le_trans (opened_le opener distinct) (List.nodup_iff_count.mp names name)
  have first : o.declares origin name = true := by rw [Occurrence.declares, declared, beq_self_eq_true]
  have second : other.declares origin name = true := by rw [Occurrence.declares, again, beq_self_eq_true]
  exact eq_of_countP_le_one total one two first second

theorem declared_of_scope {program : List Stmt} {origin : Origin} {name : String} {id : NodeId}
    (opener : origin.id? = some id) (opened : .scope origin ∈ occurrencesOf program)
    (named : name ∈ origin.names) :
    ∃ o ∈ occurrencesOf program, o.declared? = some (origin, name) := by
  have balanced := @balanced_program origin name id opener program
  unfold Balanced at balanced
  have listed : origin.names.count name ≤ openedCount origin name (occurrencesOf program) := by
    refine Nat.le_trans (Nat.le_of_eq ?_) (opened_le_openedCount opened)
    rw [Occurrence.opened, if_pos rfl]
  have positive : 0 < (occurrencesOf program).countP (·.declares origin name) := by
    rw [balanced, Nat.zero_add]
    exact Nat.lt_of_lt_of_le (List.count_pos_iff.mpr named) listed
  obtain ⟨o, member, declares⟩ := List.countP_pos_iff.mp positive
  exact ⟨o, member, eq_of_beq declares⟩

end LoxMachine.Static
