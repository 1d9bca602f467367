import LoxMachine.Proofs.Scope.Pass

namespace LoxMachine.Static

variable {G : Occurrence → Prop}

structure Blocks (levels : List Level) (pending : Option String) : Prop where
  ordinary : ∀ x, pending = some x → x ≠ "this" ∧ x ≠ "super"
  declared : ∀ x, pending = some x → ∀ level ∈ levels.head?, level.table.get? x = some .declared

theorem Blocks.none (levels : List Level) : Blocks levels none := by
  constructor
  · rintro _ ⟨⟩
  · rintro _ ⟨⟩

theorem Blocks.announce (levels : List Level) {name : Token} (ordinary : name.Ordinary) :
    Blocks (announce levels name) (some name.lexeme) := by
  constructor
  · rintro _ ⟨⟩
    exact ordinary
  · rintro _ ⟨⟩ level member
    cases levels with
    | nil => cases member
    | cons innermost outer =>
      cases member
      simp [Table.get?_put]

def Covers (levels : List Level) (names : List Token) : Prop :=
  ∀ level ∈ levels.head?, ∀ name ∈ names, name.lexeme ∈ level.origin.names

theorem Covers.stage {levels : List Level} {names : List Token} {name : String} {s : Stage}
    (covers : Covers levels names) : Covers (stage levels name s) names := by
  cases levels with
  | nil => exact covers
  | cons innermost outer =>
    rintro _ ⟨⟩
    exact covers innermost rfl

theorem Covers.addAll {levels : List Level} {names added : List Token}
    (covers : Covers levels names) : Covers (addAll levels added) names := by
  induction added generalizing levels with
  | nil => exact covers
  | cons name rest ih => exact ih covers.stage.stage

theorem Covers.left {levels : List Level} {first second : List Token}
    (covers : Covers levels (first ++ second)) : Covers levels first :=
  fun level member name here => covers level member name (List.mem_append_left _ here)

theorem Covers.right {levels : List Level} {first second : List Token}
    (covers : Covers levels (first ++ second)) : Covers levels second :=
  fun level member name here => covers level member name (List.mem_append_right _ here)

theorem contains_add (level : Level) (outer : List Level) (name : Token) (query : String) :
    ∀ inner ∈ (add (level :: outer) name).head?,
      inner.table.contains query = (query == name.lexeme || level.table.contains query) := by
  rintro _ ⟨⟩
  rw [Table.contains_put, Table.contains_put, ← Bool.or_assoc, Bool.or_self]

def Fresh (levels : List Level) (names : List Token) : Prop :=
  ∀ level ∈ levels.head?,
    (names.map (·.lexeme)).Nodup ∧ ∀ name ∈ names, level.table.contains name.lexeme = false

theorem Fresh.cons {levels : List Level} {name : Token} {rest : List Token}
    (fresh : ∀ level ∈ levels.head?, level.table.contains name.lexeme = false)
    (later : Fresh (add levels name) rest) : Fresh levels (name :: rest) := by
  cases levels with
  | nil => exact fun _ absent => nomatch absent
  | cons level outer =>
    rintro _ ⟨⟩
    obtain ⟨distinct, apart⟩ := later _ rfl
    have separate : ∀ other ∈ rest, other.lexeme ≠ name.lexeme ∧
        level.table.contains other.lexeme = false := by
      intro other member
      have absent := (contains_add level outer name other.lexeme _ rfl).symm.trans (apart other member)
      rw [Bool.or_eq_false_iff, beq_eq_false_iff_ne] at absent
      exact absent
    refine ⟨?_, ?_⟩
    · rw [List.map_cons, List.nodup_cons]
      refine ⟨fun member => ?_, distinct⟩
      obtain ⟨other, here, same⟩ := List.mem_map.mp member
      exact (separate other here).1 same
    · intro other member
      rcases List.mem_cons.mp member with rfl | later
      · exact fresh level rfl
      · exact (separate other later).2

theorem Fresh.tail {levels : List Level} {name : Token} {rest : List Token}
    (fresh : Fresh levels (name :: rest)) : Fresh (add levels name) rest := by
  cases levels with
  | nil => exact fun _ absent => nomatch absent
  | cons level outer =>
    obtain ⟨distinct, apart⟩ := fresh level rfl
    rw [List.map_cons, List.nodup_cons] at distinct
    rintro inner ⟨⟩
    refine ⟨distinct.2, fun other member => ?_⟩
    rw [contains_add level outer name other.lexeme _ rfl, Bool.or_eq_false_iff,
      beq_eq_false_iff_ne]
    exact ⟨fun same => distinct.1 (List.mem_map.mpr ⟨other, member, same⟩),
      apart other (List.mem_cons_of_mem _ member)⟩

theorem Fresh.append {levels : List Level} {first second : List Token}
    (fresh : Fresh levels first) (later : Fresh (addAll levels first) second) :
    Fresh levels (first ++ second) := by
  induction first generalizing levels with
  | nil => exact later
  | cons name rest ih =>
    exact .cons (fun level member => (fresh level member).2 name List.mem_cons_self)
      (ih fresh.tail later)

theorem fresh_of_parameters {levels : List Level} {params : List Token} {scopes : Scopes}
    (introduced : params.foldlM introduce (scopesOf levels) = .ok scopes) : Fresh levels params := by
  induction params generalizing levels scopes with
  | nil => exact fun _ _ => ⟨List.nodup_nil, fun _ absent => nomatch absent⟩
  | cons param rest ih =>
    rw [List.foldlM_cons, bind_eq_ok] at introduced
    obtain ⟨inner, first, others⟩ := introduced
    obtain ⟨rfl, fresh⟩ := scopes_of_introduce first
    exact .cons fresh (ih others)

theorem declared_ordinary (s : Stmt) (formed : s.Formed) : ∀ name ∈ s.declared, name.Ordinary := by
  match s with
  | .var _ name _ =>
    intro _ member
    cases List.mem_singleton.mp member
    exact formed.2
  | .classDecl _ name _ _ =>
    intro _ member
    cases List.mem_singleton.mp member
    exact formed.2.2
  | .function (.mk _ name _ _) =>
    intro _ member
    cases List.mem_singleton.mp member
    exact formed.2.1
  | .branch _ _ yes none => exact declared_ordinary yes formed.2.1
  | .branch _ _ yes (some no) =>
    intro name member
    rcases List.mem_append.mp member with one | other
    · exact declared_ordinary yes formed.2.1.1 name one
    · exact declared_ordinary no formed.2.2.1 name other
  | .loop _ _ body => exact declared_ordinary body formed.2.1
  | .expression _ _ | .print _ _ | .block _ _ | .returns _ _ _ =>
    intro _ member
    cases member

theorem covers_block (levels : List Level) (id : NodeId) (body : List Stmt) :
    Covers (blockLevels levels id body) (body.flatMap Stmt.declared) := by
  rintro _ ⟨⟩ name member
  exact List.mem_map_of_mem member

theorem covers_function (levels : List Level) (id : NodeId) (params : List Token)
    (body : List Stmt) :
    Covers (functionLevels levels id params body) (body.flatMap Stmt.declared) := by
  apply Covers.addAll
  rintro _ ⟨⟩ name member
  exact List.mem_append_right _ (List.mem_map_of_mem member)

theorem declarable_of_declare {levels : List Level} {name : Token} {scopes : Scopes}
    (declared : declare (scopesOf levels) name = .ok scopes) (ordinary : name.Ordinary)
    (covers : Covers levels [name]) : Declarable levels name :=
  ⟨ordinary, fun level member => covers level member name (List.mem_singleton_self name),
    (scopes_of_declare declared).2⟩

theorem declarable_of_introduce {levels : List Level} {name : Token} {scopes : Scopes}
    (introduced : introduce (scopesOf levels) name = .ok scopes) (ordinary : name.Ordinary)
    (covers : Covers levels [name]) : Declarable levels name :=
  ⟨ordinary, fun level member => covers level member name (List.mem_singleton_self name),
    (scopes_of_introduce introduced).2⟩

theorem readable_of_read {p : Site} {id : NodeId} {name : Token} {ds : Distances}
    (read : readDistance (scopesOf p.levels) id name = .ok ds) (blocks : Blocks p.levels p.pending)
    (known : G (.use id name p.levels)) : Readable G p id name := by
  refine ⟨known, fun inside same => ?_⟩
  cases levels : p.levels with
  | nil => exact inside levels
  | cons innermost outer =>
    have declared := blocks.declared _ same innermost (by simp [levels])
    simp only [levels, scopesOf, List.map_cons, readDistance, declared, ↓reduceIte] at read
    cases read

mutual

theorem fits_of_inExpr {p : Site} (e : Expr) {ds : Distances}
    (checked : inExpr p.context (scopesOf p.levels) e = .ok ds) (formed : e.Formed)
    (knows : Knows p.context p.levels) (blocks : Blocks p.levels p.pending)
    (all : ∀ o ∈ e.occurrences p.levels, G o) : e.Fits G p := by
  match e with
  | .literal _ _ => exact True.intro
  | .read use => exact readable_of_read checked blocks (all _ (by simp [Expr.occurrences]))
  | .assign id name value =>
    simp only [inExpr, bind_eq_ok] at checked
    obtain ⟨inner, first, _⟩ := checked
    simp only [Expr.occurrences, List.forall_mem_append] at all
    exact ⟨fits_of_inExpr value first formed.1 knows blocks all.1, formed.2, all.2 _ (by simp)⟩
  | .unary id operator right =>
    simp only [Expr.occurrences, List.forall_mem_cons] at all
    exact ⟨all.1, fits_of_inExpr right checked formed knows blocks all.2⟩
  | .binary id left operator right | .logical id left operator right =>
    simp only [inExpr, bind_eq_ok] at checked
    obtain ⟨first, one, second, other, _⟩ := checked
    simp only [Expr.occurrences, List.forall_mem_cons, List.forall_mem_append] at all
    exact ⟨all.1, fits_of_inExpr left one formed.1 knows blocks all.2.1,
      fits_of_inExpr right other formed.2 knows blocks all.2.2⟩
  | .grouping _ inner => exact fits_of_inExpr inner checked formed knows blocks all
  | .call id callee paren arguments =>
    simp only [inExpr, bind_eq_ok] at checked
    obtain ⟨first, one, others, rest, _⟩ := checked
    simp only [Expr.occurrences, List.forall_mem_cons, List.forall_mem_append] at all
    exact ⟨all.1, fits_of_inExpr callee one formed.1 knows blocks all.2.1,
      fit_of_inExprs arguments rest formed.2 knows blocks all.2.2⟩
  | .get id object name =>
    simp only [Expr.occurrences, List.forall_mem_cons] at all
    exact ⟨all.1, fits_of_inExpr object checked formed knows blocks all.2⟩
  | .set id object name value =>
    simp only [inExpr, bind_eq_ok] at checked
    obtain ⟨first, one, second, other, _⟩ := checked
    simp only [Expr.occurrences, List.forall_mem_cons, List.forall_mem_append] at all
    exact ⟨all.1, fits_of_inExpr object other formed.1 knows blocks all.2.2,
      fits_of_inExpr value one formed.2 knows blocks all.2.1⟩
  | .this id keyword =>
    simp only [inExpr] at checked
    split at checked
    · cases checked
    · rename_i inside
      exact ⟨formed, readable_of_read checked blocks (all _ (by simp [Expr.occurrences])),
        knows.receiver inside⟩
  | .super id keyword method =>
    simp only [inExpr] at checked
    split at checked
    · cases checked
    · cases checked
    · rename_i inside
      refine ⟨formed, all _ (by simp [Expr.occurrences]), all _ (by simp [Expr.occurrences]),
        knows.heritage inside, ?_, ?_⟩
      · exact fun same => (blocks.ordinary _ same).1 rfl
      · exact fun same => (blocks.ordinary _ same).2 rfl

theorem fit_of_inExprs {p : Site} (es : List Expr) {ds : Distances}
    (checked : inExprs p.context (scopesOf p.levels) es = .ok ds) (formed : ExprsFormed es)
    (knows : Knows p.context p.levels) (blocks : Blocks p.levels p.pending)
    (all : ∀ o ∈ exprsOccurrences p.levels es, G o) : ExprsFit G p es := by
  match es with
  | [] => exact True.intro
  | e :: rest =>
    simp only [inExprs, bind_eq_ok] at checked
    obtain ⟨first, one, others, more, _⟩ := checked
    simp only [exprsOccurrences, List.forall_mem_append] at all
    exact ⟨fits_of_inExpr e one formed.1 knows blocks all.1,
      fit_of_inExprs rest more formed.2 knows blocks all.2⟩

end

theorem fits_of_inOptional {p : Site} {e : Option Expr} {ds : Distances}
    (checked : inOptional p.context (scopesOf p.levels) e = .ok ds) (formed : OptionalFormed e)
    (knows : Knows p.context p.levels) (blocks : Blocks p.levels p.pending)
    (all : ∀ o ∈ optionalOccurrences p.levels e, G o) : OptionalFits G p e := by
  cases e with
  | none => exact True.intro
  | some e => exact fits_of_inExpr e checked formed knows blocks all

theorem fits_of_inReturned {context : Context} {levels : List Level} {keyword : Token}
    {value : Option Expr} {ds : Distances}
    (checked : inReturned context (scopesOf levels) keyword value = .ok ds)
    (formed : OptionalFormed value) (knows : Knows context levels)
    (all : ∀ o ∈ optionalOccurrences levels value, G o) :
    context.function ≠ .topLevel ∧ OptionalFits G ⟨context, levels, none⟩ value := by
  unfold inReturned at checked
  split at checked
  · cases checked
  · rename_i inside
    refine ⟨inside, ?_⟩
    cases value with
    | none => exact True.intro
    | some e =>
      simp only at checked
      split at checked
      · cases checked
      · exact fits_of_inExpr (p := ⟨context, levels, none⟩) e checked formed knows
          (Blocks.none levels) all

theorem fits_of_inHeritage {context : Context} {levels : List Level} {name : Token}
    {superclass : Option Variable} {ds : Distances}
    (checked : inHeritage (scopesOf levels) name superclass = .ok ds)
    (all : ∀ o ∈ heritageOccurrences levels superclass, G o) :
    HeritageFits G context levels name superclass := by
  cases superclass with
  | none => exact True.intro
  | some use =>
    simp only [inHeritage] at checked
    split at checked
    · cases checked
    · rename_i other
      refine ⟨all _ (by simp [heritageOccurrences]), fun _ same => other ?_⟩
      exact (Option.some.inj same).symm

mutual

theorem fits_of_inStmt {context : Context} {levels : List Level} (s : Stmt)
    {result : Scopes × Distances} (checked : inStmt context (scopesOf levels) s = .ok result)
    (formed : s.Formed) (knows : Knows context levels) (covers : Covers levels s.declared)
    (all : ∀ o ∈ s.occurrences levels, G o) : s.Fits G context levels := by
  match s with
  | .expression _ e | .print _ e =>
    simp only [inStmt, bind_eq_ok] at checked
    obtain ⟨ds, inner, _⟩ := checked
    exact fits_of_inExpr (p := ⟨context, levels, none⟩) e inner formed knows (Blocks.none levels) all
  | .var id name initializer =>
    simp only [inStmt, bind_eq_ok] at checked
    obtain ⟨scopes, declared, ds, inner, _⟩ := checked
    obtain ⟨rfl, _⟩ := scopes_of_declare declared
    simp only [Stmt.occurrences, List.forall_mem_cons] at all
    exact ⟨all.1, declarable_of_declare declared formed.2 covers,
      fits_of_inOptional (p := ⟨context, announce levels name, some name.lexeme⟩) inner formed.1
        (knows.announce formed.2) (Blocks.announce levels formed.2) all.2⟩
  | .block id body =>
    simp only [inStmt, bind_eq_ok] at checked
    obtain ⟨after, inner, _⟩ := checked
    simp only [Stmt.occurrences, List.forall_mem_cons] at all
    exact ⟨all.1, fit_of_inStmts (blockLevels levels id body) body inner formed
      (knows.push rfl rfl) (covers_block levels id body) all.2⟩
  | .branch _ condition yes none =>
    simp only [inStmt, bind_eq_ok] at checked
    obtain ⟨first, one, ⟨scopes, second⟩, two, _⟩ := checked
    simp only [Stmt.occurrences, List.forall_mem_append] at all
    exact ⟨fits_of_inExpr (p := ⟨context, levels, none⟩) condition one formed.1 knows
        (Blocks.none levels) all.1,
      fits_of_inStmt yes two formed.2.1 knows covers all.2, formed.2.2⟩
  | .branch _ condition yes (some no) =>
    simp only [inStmt, bind_eq_ok] at checked
    obtain ⟨first, one, ⟨scopes, second⟩, two, ⟨after, third⟩, three, _⟩ := checked
    obtain ⟨tested, ⟨chosen, silent⟩, other, quiet⟩ := formed
    simp only [Stmt.occurrences, List.forall_mem_append] at all
    cases distances_of_inStmt yes two
    simp only [silent] at three
    refine ⟨fits_of_inExpr (p := ⟨context, levels, none⟩) condition one tested knows
        (Blocks.none levels) all.1.1,
      ⟨fits_of_inStmt yes two chosen knows covers.left all.1.2, silent⟩,
      fits_of_inStmt no three other knows covers.right ?_, quiet⟩
    simpa only [silent, addAll, List.foldl_nil] using all.2
  | .loop _ condition body =>
    simp only [inStmt, bind_eq_ok] at checked
    obtain ⟨first, one, ⟨scopes, second⟩, two, _⟩ := checked
    simp only [Stmt.occurrences, List.forall_mem_append] at all
    exact ⟨fits_of_inExpr (p := ⟨context, levels, none⟩) condition one formed.1 knows
        (Blocks.none levels) all.1,
      fits_of_inStmt body two formed.2.1 knows covers all.2, formed.2.2⟩
  | .function decl =>
    simp only [inStmt, bind_eq_ok] at checked
    obtain ⟨scopes, introduced, ds, inner, _⟩ := checked
    obtain ⟨rfl, _⟩ := scopes_of_introduce introduced
    have ordinary : decl.name.Ordinary := by
      cases decl
      exact formed.2.1
    simp only [Stmt.occurrences, List.forall_mem_cons] at all
    refine ⟨all.1, declarable_of_introduce introduced ordinary covers, ?_⟩
    exact fits_of_inFunction decl inner formed ⟨(knows.add ordinary).receiver,
      (knows.add ordinary).heritage⟩ all.2
  | .returns id keyword value =>
    simp only [inStmt, bind_eq_ok] at checked
    obtain ⟨ds, inner, _⟩ := checked
    simp only [Stmt.occurrences, List.forall_mem_cons] at all
    exact ⟨all.1, fits_of_inReturned inner formed knows all.2⟩
  | .classDecl _ name superclass methods =>
    simp only [inStmt, bind_eq_ok] at checked
    obtain ⟨scopes, introduced, first, one, others, more, _⟩ := checked
    obtain ⟨rfl, _⟩ := scopes_of_introduce introduced
    rw [scopesOf_methods] at more
    simp only [Stmt.occurrences, List.forall_mem_cons, List.forall_mem_append] at all
    obtain ⟨marked, called, used, inner⟩ := all
    exact ⟨⟨marked, called⟩, declarable_of_introduce introduced formed.2.2 covers,
      fits_of_inHeritage one used,
      fit_of_inMethods methods more formed.2.1 (fun kind => Knows.methods kind _ superclass) inner⟩

theorem fit_of_inStmts {context : Context} (levels : List Level) (body : List Stmt)
    {result : Scopes × Distances} (checked : inStmts context (scopesOf levels) body = .ok result)
    (formed : StmtsFormed body) (knows : Knows context levels)
    (covers : Covers levels (body.flatMap Stmt.declared))
    (all : ∀ o ∈ stmtsOccurrences levels body, G o) : StmtsFit G context levels body := by
  match body with
  | [] => exact True.intro
  | s :: rest =>
    simp only [inStmts, bind_eq_ok] at checked
    obtain ⟨⟨scopes, first⟩, one, ⟨after, others⟩, more, _⟩ := checked
    simp only [stmtsOccurrences, List.forall_mem_append] at all
    rw [List.flatMap_cons] at covers
    cases distances_of_inStmt s one
    exact ⟨fits_of_inStmt s one formed.1 knows covers.left all.1,
      fit_of_inStmts _ rest more formed.2 (knows.addAll (declared_ordinary s formed.1))
        covers.right.addAll all.2⟩

theorem fits_of_inFunction {context : Context} {levels : List Level} (decl : FunctionDecl)
    {ds : Distances} (checked : inFunction context (scopesOf levels) decl = .ok ds)
    (formed : decl.Formed) (knows : Knows context levels)
    (all : ∀ o ∈ decl.occurrences levels, G o) : decl.Fits G context levels := by
  match decl with
  | .mk id _ params body =>
    simp only [inFunction, bind_eq_ok] at checked
    obtain ⟨scopes, introduced, after, inner, _⟩ := checked
    have same := scopes_of_parameters (⟨functionOrigin id params body, []⟩ :: levels) introduced
    subst same
    simp only [FunctionDecl.occurrences, List.forall_mem_cons, List.forall_mem_append,
      List.forall_mem_map] at all
    obtain ⟨marked, opened, params_all, body_all⟩ := all
    obtain ⟨formed, _, ordinary⟩ := formed
    have fresh : Fresh (⟨functionOrigin id params body, []⟩ :: levels) params :=
      fresh_of_parameters introduced
    exact ⟨⟨marked, opened, (fresh _ rfl).1⟩,
      fun param member => ⟨ordinary param member, params_all param member⟩,
      fit_of_inStmts _ body inner formed ((knows.push rfl rfl).addAll ordinary)
        (covers_function levels id params body) body_all⟩

theorem fit_of_inMethods {enclosingClass : ClassContext} {levels : List Level}
    (methods : List FunctionDecl) {ds : Distances}
    (checked : inMethods enclosingClass (scopesOf (receiverLevel :: levels)) methods = .ok ds)
    (formed : MethodsFormed methods)
    (knows : ∀ kind, Knows ⟨kind, enclosingClass⟩ (receiverLevel :: levels))
    (all : ∀ o ∈ methodsOccurrences (receiverLevel :: levels) methods, G o) :
    MethodsFit G enclosingClass levels methods := by
  match methods with
  | [] => exact True.intro
  | m :: rest =>
    simp only [inMethods, bind_eq_ok] at checked
    obtain ⟨first, one, others, more, _⟩ := checked
    simp only [methodsOccurrences, List.forall_mem_append] at all
    exact ⟨fits_of_inFunction m one formed.1 (knows _) all.1,
      fit_of_inMethods rest more formed.2 knows all.2⟩

end

theorem fit_of_accepted {program : List Stmt} {ds : Distances} (formed : StmtsFormed program)
    (accepted : distancesOf program = .ok ds) (all : ∀ o ∈ occurrencesOf program, G o) :
    StmtsFit G ⟨.topLevel, .outside⟩ [] program := by
  simp only [distancesOf, bind_eq_ok] at accepted
  obtain ⟨after, checked, _⟩ := accepted
  refine fit_of_inStmts [] program checked formed ⟨?_, ?_⟩ ?_ all
  · exact fun inside => absurd rfl inside
  · intro derived
    cases derived
  · intro level member
    cases member

end LoxMachine.Static
