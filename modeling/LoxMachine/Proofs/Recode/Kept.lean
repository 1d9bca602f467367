import LoxMachine.Proofs.Recode.Store

namespace LoxMachine

open Static

def Respelling.still : Respelling where
  mark _ t := t
  use _ t := t
  declare _ t := t

theorem Respelling.mark_still (id : NodeId) (t : Token) : still.mark id t = t := rfl

theorem Respelling.use_still (id : NodeId) (t : Token) : still.use id t = t := rfl

theorem Respelling.declare_still (id : NodeId) (t : Token) : still.declare id t = t := rfl

def Respelling.AgreeOn (ϕ ψ : Respelling) : Occurrence → Prop
  | .use id name _ => ϕ.use id name = ψ.use id name
  | .variable id name _ | .parameter id name _ => ϕ.declare id name = ψ.declare id name
  | .mark id token => ϕ.mark id token = ψ.mark id token
  | .callable _ _ | .scope _ => True

section Agree

variable {ϕ ψ : Respelling} {G : Occurrence → Prop}

mutual

theorem Expr.Fits.recode_congr (agree : ∀ o, G o → ϕ.AgreeOn ψ o) {p : Site} {e : Expr}
    (fits : e.Fits G p) : e.recode ϕ = e.recode ψ := by
  match e with
  | .literal _ _ => rfl
  | .read use =>
    have same : ϕ.use use.id use.name = ψ.use use.id use.name := agree _ fits.1
    simp only [Expr.recode, Variable.recode, same]
  | .assign id name value =>
    have same : ϕ.use id name = ψ.use id name := agree _ fits.2.2
    simp only [Expr.recode, same, Expr.Fits.recode_congr agree fits.1]
  | .unary id operator right =>
    have same : ϕ.mark id operator = ψ.mark id operator := agree _ fits.1
    simp only [Expr.recode, same, Expr.Fits.recode_congr agree fits.2]
  | .binary id left operator right | .logical id left operator right =>
    have same : ϕ.mark id operator = ψ.mark id operator := agree _ fits.1
    simp only [Expr.recode, same, Expr.Fits.recode_congr agree fits.2.1,
      Expr.Fits.recode_congr agree fits.2.2]
  | .grouping _ inner =>
    simp only [Expr.recode, Expr.Fits.recode_congr (e := inner) agree fits]
  | .call id callee paren arguments =>
    have same : ϕ.mark id paren = ψ.mark id paren := agree _ fits.1
    simp only [Expr.recode, same, Expr.Fits.recode_congr agree fits.2.1,
      ExprsFit.recode_congr agree fits.2.2]
  | .get id object name =>
    have same : ϕ.mark id name = ψ.mark id name := agree _ fits.1
    simp only [Expr.recode, same, Expr.Fits.recode_congr agree fits.2]
  | .set id object name value =>
    have same : ϕ.mark id name = ψ.mark id name := agree _ fits.1
    simp only [Expr.recode, same, Expr.Fits.recode_congr agree fits.2.1,
      Expr.Fits.recode_congr agree fits.2.2]
  | .this id keyword =>
    have same : ϕ.use id keyword = ψ.use id keyword := agree _ fits.2.1.1
    simp only [Expr.recode, same]
  | .super id keyword method =>
    have same : ϕ.use id keyword = ψ.use id keyword := agree _ fits.2.1
    have marked : ϕ.mark id method = ψ.mark id method := agree _ fits.2.2.1
    simp only [Expr.recode, same, marked]

theorem ExprsFit.recode_congr (agree : ∀ o, G o → ϕ.AgreeOn ψ o) {p : Site} {es : List Expr}
    (fit : ExprsFit G p es) : exprsRecode ϕ es = exprsRecode ψ es := by
  match es with
  | [] => rfl
  | e :: rest =>
    rw [exprsRecode, exprsRecode, Expr.Fits.recode_congr agree fit.1,
      ExprsFit.recode_congr agree fit.2]

end

theorem OptionalFits.recode_congr (agree : ∀ o, G o → ϕ.AgreeOn ψ o) {p : Site} {e : Option Expr}
    (fits : OptionalFits G p e) : e.map (·.recode ϕ) = e.map (·.recode ψ) := by
  cases e with
  | none => rfl
  | some e => exact congrArg some (Expr.Fits.recode_congr agree fits)

theorem HeritageFits.recode_congr (agree : ∀ o, G o → ϕ.AgreeOn ψ o) {context : Context}
    {levels : List Level} {name : Token} {superclass : Option Variable}
    (fits : HeritageFits G context levels name superclass) :
    superclass.map (·.recode ϕ) = superclass.map (·.recode ψ) := by
  cases superclass with
  | none => rfl
  | some use =>
    have same : ϕ.use use.id use.name = ψ.use use.id use.name := agree _ fits.1
    simp only [Option.map_some, Variable.recode, same]

mutual

theorem Stmt.Fits.recode_congr (agree : ∀ o, G o → ϕ.AgreeOn ψ o) {context : Context}
    {levels : List Level} {s : Stmt} (fits : s.Fits G context levels) :
    s.recode ϕ = s.recode ψ := by
  match s with
  | .expression _ e | .print _ e =>
    simp only [Stmt.recode, Expr.Fits.recode_congr (e := e) agree fits]
  | .var id name initializer =>
    have same : ϕ.declare id name = ψ.declare id name := agree _ fits.1
    simp only [Stmt.recode, same, OptionalFits.recode_congr agree fits.2.2]
  | .block id body => simp only [Stmt.recode, StmtsFit.recode_congr agree fits.2]
  | .branch _ condition yes none =>
    simp only [Stmt.recode, Expr.Fits.recode_congr agree fits.1,
      Stmt.Fits.recode_congr agree fits.2.1]
  | .branch _ condition yes (some no) =>
    simp only [Stmt.recode, Expr.Fits.recode_congr agree fits.1,
      Stmt.Fits.recode_congr agree fits.2.1.1, Stmt.Fits.recode_congr agree fits.2.2.1]
  | .loop _ condition body =>
    simp only [Stmt.recode, Expr.Fits.recode_congr agree fits.1,
      Stmt.Fits.recode_congr agree fits.2.1]
  | .function decl => simp only [Stmt.recode, FunctionDecl.Fits.recode_congr agree fits.2.2]
  | .returns id keyword value =>
    have same : ϕ.mark id keyword = ψ.mark id keyword := agree _ fits.1
    simp only [Stmt.recode, same, OptionalFits.recode_congr agree fits.2.2]
  | .classDecl id name superclass methods =>
    have same : ϕ.mark id name = ψ.mark id name := agree _ fits.1.1
    simp only [Stmt.recode, same, HeritageFits.recode_congr agree fits.2.2.1,
      MethodsFit.recode_congr agree fits.2.2.2]

theorem StmtsFit.recode_congr (agree : ∀ o, G o → ϕ.AgreeOn ψ o) {context : Context}
    {levels : List Level} {body : List Stmt} (fit : StmtsFit G context levels body) :
    stmtsRecode ϕ body = stmtsRecode ψ body := by
  match body with
  | [] => rfl
  | s :: rest =>
    rw [stmtsRecode, stmtsRecode, Stmt.Fits.recode_congr agree fit.1,
      StmtsFit.recode_congr agree fit.2]

theorem FunctionDecl.Fits.recode_congr (agree : ∀ o, G o → ϕ.AgreeOn ψ o) {context : Context}
    {levels : List Level} {decl : FunctionDecl} (fits : decl.Fits G context levels) :
    decl.recode ϕ = decl.recode ψ := by
  match decl with
  | .mk id name params body =>
    obtain ⟨⟨marked, _⟩, params_fit, fit⟩ := fits
    have same : ϕ.mark id name = ψ.mark id name := agree _ marked
    have params_same : params.map (ϕ.declare id) = params.map (ψ.declare id) :=
      List.map_congr_left fun param member => agree _ (params_fit param member).2
    simp only [FunctionDecl.recode, same, params_same, StmtsFit.recode_congr agree fit]

theorem MethodsFit.recode_congr (agree : ∀ o, G o → ϕ.AgreeOn ψ o) {enclosingClass : ClassContext}
    {levels : List Level} {methods : List FunctionDecl}
    (fit : MethodsFit G enclosingClass levels methods) :
    methodsRecode ϕ methods = methodsRecode ψ methods := by
  match methods with
  | [] => rfl
  | m :: rest =>
    rw [methodsRecode, methodsRecode, FunctionDecl.Fits.recode_congr agree fit.1,
      MethodsFit.recode_congr agree fit.2]

end

end Agree

mutual

theorem Expr.recode_still (e : Expr) : e.recode .still = e := by
  match e with
  | .literal _ _ | .read _ | .this _ _ | .super _ _ _ => rfl
  | .assign _ _ inner | .unary _ _ inner | .grouping _ inner | .get _ inner _ =>
    simp only [Expr.recode, Expr.recode_still inner, Respelling.use_still, Respelling.mark_still]
  | .binary _ left _ right | .logical _ left _ right | .set _ left _ right =>
    simp only [Expr.recode, Expr.recode_still left, Expr.recode_still right, Respelling.mark_still]
  | .call _ callee _ arguments =>
    simp only [Expr.recode, Expr.recode_still callee, exprsRecode_still arguments,
      Respelling.mark_still]

theorem exprsRecode_still (es : List Expr) : exprsRecode .still es = es := by
  match es with
  | [] => rfl
  | e :: rest => rw [exprsRecode, Expr.recode_still e, exprsRecode_still rest]

end

theorem optional_recode_still (e : Option Expr) : e.map (·.recode .still) = e := by
  cases e with
  | none => rfl
  | some e => exact congrArg some e.recode_still

mutual

theorem Stmt.recode_still (s : Stmt) : s.recode .still = s := by
  match s with
  | .expression _ e | .print _ e => simp only [Stmt.recode, Expr.recode_still]
  | .var _ _ value | .returns _ _ value =>
    simp only [Stmt.recode, optional_recode_still, Respelling.declare_still, Respelling.mark_still]
  | .block _ body => rw [Stmt.recode, stmtsRecode_still body]
  | .branch _ condition yes none => rw [Stmt.recode, Expr.recode_still, Stmt.recode_still yes]
  | .branch _ condition yes (some no) =>
    rw [Stmt.recode, Expr.recode_still, Stmt.recode_still yes, Stmt.recode_still no]
  | .loop _ condition body => rw [Stmt.recode, Expr.recode_still, Stmt.recode_still body]
  | .function decl => rw [Stmt.recode, FunctionDecl.recode_still decl]
  | .classDecl _ _ superclass methods =>
    have same : superclass.map (·.recode .still) = superclass := by cases superclass <;> rfl
    simp only [Stmt.recode, methodsRecode_still methods, same, Respelling.mark_still]

theorem stmtsRecode_still (body : List Stmt) : stmtsRecode .still body = body := by
  match body with
  | [] => rfl
  | s :: rest => rw [stmtsRecode, Stmt.recode_still s, stmtsRecode_still rest]

theorem FunctionDecl.recode_still (decl : FunctionDecl) : decl.recode .still = decl := by
  match decl with
  | .mk id _ params body =>
    have same : params.map (Respelling.still.declare id) = params := List.map_id params
    simp only [FunctionDecl.recode, stmtsRecode_still body, same, Respelling.mark_still]

theorem methodsRecode_still (methods : List FunctionDecl) :
    methodsRecode .still methods = methods := by
  match methods with
  | [] => rfl
  | m :: rest => rw [methodsRecode, FunctionDecl.recode_still m, methodsRecode_still rest]

end

section Kept

variable {ϕ : Respelling} {w : World} (kept : ∀ o, w.occurs o → ϕ.AgreeOn .still o)

include kept

theorem Method.Fits.recode_eq {m : Method} (fits : m.Fits w) : m.recode ϕ = m := by
  obtain ⟨_, _, decl, _⟩ := fits
  rw [Method.recode, decl.recode_congr kept, FunctionDecl.recode_still]

theorem Closure.Fits.recode_eq {f : Closure} (fits : f.Fits w) : f.recode ϕ = f := by
  obtain ⟨_, _, decl, _⟩ := fits
  rw [Closure.recode, decl.recode_congr kept, FunctionDecl.recode_still]

theorem methods_recode_eq {methods : Table Method} (fit : ∀ entry ∈ methods, entry.2.Fits w) :
    methods.recode id (·.recode ϕ) = methods := by
  unfold Table.recode
  rw [List.map_congr_left (g := id) fun entry member => ?_, List.map_id]
  exact Prod.ext rfl ((fit entry member).recode_eq kept)

theorem Class.Fits.recode_eq : ∀ {c : Class}, c.Fits w → c.recode ϕ = c
  | ⟨_, _, none, _⟩, fits => by rw [Class.recode, methods_recode_eq kept fits.1]
  | ⟨_, _, some base, _⟩, fits => by
    rw [Class.recode, methods_recode_eq kept fits.1, Class.Fits.recode_eq fits.2]

theorem Value.Fits.recode_eq {a : Value} (fits : a.Fits w) : a.recode ϕ = a := by
  cases a with
  | closure f => exact congrArg Value.closure (Closure.Fits.recode_eq kept fits)
  | cls c => exact congrArg Value.cls (Class.Fits.recode_eq kept fits)
  | object o =>
    have same := Class.Fits.recode_eq kept (c := o.cls) fits
    rw [Value.recode, Object.recode, same]
  | nil | bool | number | string | native => rfl

omit kept in
/-- A store that holds nothing but code that the recoding keeps stays as it is. -/
theorem Store.Fits.recode_eq {G : Occurrence → Prop} {shape : List Origin} {s : Store}
    {ϕ : Recoding} (fits : s.Fits G shape) (kept : ∀ o, G o → ϕ.AgreeOn .still o)
    (names : ∀ origin ∈ shape, ∀ name ∈ origin.names, ϕ.bound origin name = name) :
    s.recode ϕ shape = s := by
  have named : ∀ e, ∀ entry ∈ s.scopes.bindings e,
      ϕ.bound (originAt shape e) entry.1 = entry.1 := by
    intro e entry member
    by_cases top : e = Store.globals
    · have opened : originAt shape e = .global := top ▸ originAt_eq fits.global
      rw [opened, ϕ.bound_global]
    · have bound : s.scopes.contains e entry.1 = true := Table.contains_of_mem member
      have inside := Forest.lt_size_of_contains bound
      rw [← fits.sized] at inside
      have opened := List.getElem?_eq_getElem inside
      rw [originAt_eq opened]
      exact names _ (List.getElem_mem inside) _ (fits.named e entry.1 _ top bound opened)
  have scopes : s.scopes.recode ϕ shape = s.scopes := by
    obtain ⟨⟨scopes⟩, _, _, _⟩ := s
    refine congrArg Forest.mk (Array.ext_getElem? fun e => ?_)
    rw [Array.getElem?_mapIdx]
    cases found : scopes[e]? with
    | none => rfl
    | some scope =>
      have here : Forest.bindings ⟨scopes⟩ e = scope.bindings := by
        simp only [Forest.bindings, found]
      have same : scope.bindings.recodeBindings ϕ shape e = scope.bindings := by
        unfold Table.recodeBindings Table.recode
        rw [List.map_congr_left (g := id) fun entry member => ?_, List.map_id]
        rw [← here] at member
        exact Prod.ext (named e entry member) ((fits.bound e entry member).recode_eq kept)
      simp only [Option.map_some, same]
  have fields : s.fields.map (·.recode id (·.recode ϕ)) = s.fields := by
    refine Array.ext_getElem? fun i => ?_
    rw [Array.getElem?_map]
    cases found : s.fields[i]? with
    | none => rfl
    | some table =>
      have same : table.recode id (·.recode ϕ) = table := by
        unfold Table.recode
        rw [List.map_congr_left (g := id) fun entry member => ?_, List.map_id]
        have held : entry ∈ s.fieldsOf ⟨i, ⟨0, "", none, []⟩⟩ := by
          rw [Store.fieldsOf, found]
          exact member
        exact Prod.ext rfl ((fits.fields _ entry held).recode_eq kept)
      rw [Option.map_some, same]
  have same : s.kept.map (·.recode ϕ) = s.kept := by
    rw [List.map_congr_left (g := id) fun a member => (fits.kept a member).recode_eq kept,
      List.map_id]
  rw [Store.recode, scopes, fields, same]

end Kept

end LoxMachine
