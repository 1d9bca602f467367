import LoxMachine.Proofs.Scope.Levels

namespace LoxMachine

theorem Table.contains_put {α : Type} (t : Table α) (name query : String) (a : α) :
    (t.put name a).contains query = (query == name || t.contains query) := by
  simp only [Table.contains, Table.get?_put]
  by_cases same : query = name
  · simp [same]
  · simp [same]

theorem Table.mem_of_get? {α : Type} {t : Table α} {name : String} {a : α}
    (found : t.get? name = some a) : (name, a) ∈ t := by
  induction t with
  | nil => cases found
  | cons entry rest ih =>
    rw [get?_cons] at found
    split at found
    · rename_i same
      cases found
      rw [beq_iff_eq.mp same]
      exact List.mem_cons_self
    · exact List.mem_cons_of_mem _ (ih found)

theorem Table.contains_of_mem {α : Type} {t : Table α} {entry : String × α} (member : entry ∈ t) :
    t.contains entry.1 = true := by
  induction t with
  | nil => cases member
  | cons first rest ih =>
    obtain ⟨other, b⟩ := first
    rw [contains, get?_cons]
    split
    · rfl
    · rename_i differ
      rcases List.mem_cons.mp member with rfl | later
      · exact absurd (beq_self_eq_true other) differ
      · exact ih later

theorem Table.mem_put {α : Type} {t : Table α} {name : String} {a : α} {entry : String × α}
    (member : entry ∈ t.put name a) : entry = (name, a) ∨ entry ∈ t := by
  induction t with
  | nil => exact .inl (List.mem_singleton.mp member)
  | cons first rest ih =>
    rw [put] at member
    split at member
    · rcases List.mem_cons.mp member with here | later
      · exact .inl here
      · exact .inr (List.mem_cons_of_mem _ later)
    · rcases List.mem_cons.mp member with rfl | later
      · exact .inr List.mem_cons_self
      · exact (ih later).imp_right (List.mem_cons_of_mem _)

namespace Static

structure Site where
  context : Context
  levels : List Level
  pending : Option String

/-- The number of levels between a place and the first level with the name. -/
def locate (levels : List Level) (name : String) : Option Nat :=
  levels.findIdx? (·.table.contains name)

theorem addAll_nil (names : List Token) : addAll [] names = [] := by
  induction names with
  | nil => rfl
  | cons name rest ih => exact ih

theorem originOf_stage (levels : List Level) (name : String) (s : Stage) :
    originOf (stage levels name s) = originOf levels := by
  cases levels <;> rfl

theorem originOf_addAll (levels : List Level) (names : List Token) :
    originOf (addAll levels names) = originOf levels := by
  induction names generalizing levels with
  | nil => rfl
  | cons name rest ih =>
    exact (ih (add levels name)).trans ((originOf_stage _ _ _).trans (originOf_stage _ _ _))

def KnowsReceiver (levels : List Level) : Prop := (locate levels "this").isSome

def KnowsHeritage (levels : List Level) : Prop :=
  ∃ d, locate levels "super" = some (d + 1) ∧ locate levels "this" = some d

structure Knows (context : Context) (levels : List Level) : Prop where
  receiver : context.enclosingClass ≠ .outside → KnowsReceiver levels
  heritage : context.enclosingClass = .derived → KnowsHeritage levels

structure Declarable (levels : List Level) (name : Token) : Prop where
  ordinary : name.Ordinary
  named : ∀ level ∈ levels.head?, name.lexeme ∈ level.origin.names
  fresh : ∀ level ∈ levels.head?, level.table.contains name.lexeme = false

def Readable (G : Occurrence → Prop) (p : Site) (id : NodeId) (name : Token) : Prop :=
  G (.use id name p.levels) ∧ (p.levels ≠ [] → p.pending ≠ some name.lexeme)

end Static

open Static

variable (G : Occurrence → Prop)

mutual

/-- An expression that fits its place. -/
def Expr.Fits (p : Site) : Expr → Prop
  | .literal _ _ => True
  | .read use => Readable G p use.id use.name
  | .assign id name value => value.Fits p ∧ name.Ordinary ∧ G (.use id name p.levels)
  | .unary id operator right => G (.mark id operator) ∧ right.Fits p
  | .binary id left operator right | .logical id left operator right =>
    G (.mark id operator) ∧ left.Fits p ∧ right.Fits p
  | .grouping _ inner => inner.Fits p
  | .call id callee paren arguments => G (.mark id paren) ∧ callee.Fits p ∧ ExprsFit p arguments
  | .get id object name => G (.mark id name) ∧ object.Fits p
  | .set id object name value => G (.mark id name) ∧ object.Fits p ∧ value.Fits p
  | .this id keyword => keyword.lexeme = "this" ∧ Readable G p id keyword ∧ KnowsReceiver p.levels
  | .super id keyword method =>
    keyword.lexeme = "super" ∧ G (.use id keyword p.levels) ∧ G (.mark id method)
      ∧ KnowsHeritage p.levels ∧ p.pending ≠ some "this" ∧ p.pending ≠ some "super"

def ExprsFit (p : Site) : List Expr → Prop
  | [] => True
  | e :: rest => e.Fits p ∧ ExprsFit p rest

end

def OptionalFits (p : Site) : Option Expr → Prop
  | none => True
  | some e => e.Fits G p

def HeritageFits (context : Context) (levels : List Level) (name : Token) :
    Option Variable → Prop
  | none => True
  | some use => Readable G ⟨context, levels, some name.lexeme⟩ use.id use.name

mutual

/-- A statement that fits the context and the levels around it. -/
def Stmt.Fits (context : Context) (levels : List Level) : Stmt → Prop
  | .expression _ e | .print _ e => e.Fits G ⟨context, levels, none⟩
  | .var id name initializer =>
    G (.variable id name levels) ∧ Declarable levels name
      ∧ OptionalFits G ⟨context, announce levels name, some name.lexeme⟩ initializer
  | .block id body =>
    G (.scope (.block id (namesOf body))) ∧ StmtsFit context (blockLevels levels id body) body
  | .branch _ condition yes none =>
    condition.Fits G ⟨context, levels, none⟩ ∧ yes.Fits context levels ∧ yes.declared = []
  | .branch _ condition yes (some no) =>
    condition.Fits G ⟨context, levels, none⟩ ∧ (yes.Fits context levels ∧ yes.declared = [])
      ∧ no.Fits context levels ∧ no.declared = []
  | .loop _ condition body =>
    condition.Fits G ⟨context, levels, none⟩ ∧ body.Fits context levels ∧ body.declared = []
  | .function decl =>
    G (.callable decl.name levels) ∧ Declarable levels decl.name
      ∧ decl.Fits ⟨.function, context.enclosingClass⟩ (add levels decl.name)
  | .returns id keyword value =>
    G (.mark id keyword) ∧ context.function ≠ .topLevel
      ∧ OptionalFits G ⟨context, levels, none⟩ value
  | .classDecl id name superclass methods =>
    (G (.mark id name) ∧ G (.callable name levels)) ∧ Declarable levels name
      ∧ HeritageFits G context (add levels name) name superclass
      ∧ MethodsFit (classContext superclass) (classLevels (add levels name) superclass) methods

def StmtsFit (context : Context) (levels : List Level) : List Stmt → Prop
  | [] => True
  | s :: rest => s.Fits context levels ∧ StmtsFit context (addAll levels s.declared) rest

def FunctionDecl.Fits (context : Context) (levels : List Level) : FunctionDecl → Prop
  | .mk id name params body =>
    (G (.mark id name) ∧ G (.scope (functionOrigin id params body))
        ∧ (params.map (·.lexeme)).Nodup)
      ∧ (∀ param ∈ params,
        param.Ordinary ∧ G (.parameter id param (functionLevels levels id params body)))
      ∧ StmtsFit context (functionLevels levels id params body) body

def MethodsFit (enclosingClass : ClassContext) (levels : List Level) : List FunctionDecl → Prop
  | [] => True
  | m :: rest =>
    m.Fits ⟨methodContext m.name, enclosingClass⟩ (receiverLevel :: levels)
      ∧ MethodsFit enclosingClass levels rest

end

section Mono

variable {G H : Occurrence → Prop}

theorem Static.Readable.mono (all : ∀ o, G o → H o) {p : Site} {id : NodeId} {name : Token}
    (readable : Readable G p id name) : Readable H p id name :=
  ⟨all _ readable.1, readable.2⟩

mutual

theorem Expr.Fits.mono (all : ∀ o, G o → H o)
    {p : Site} {e : Expr} (fits : e.Fits G p) : e.Fits H p := by
  match e with
  | .literal _ _ => exact True.intro
  | .read use => exact Readable.mono all fits
  | .assign id name value => exact ⟨Expr.Fits.mono all fits.1, fits.2.1, all _ fits.2.2⟩
  | .unary id operator right => exact ⟨all _ fits.1, Expr.Fits.mono all fits.2⟩
  | .binary id left operator right | .logical id left operator right =>
    exact ⟨all _ fits.1, Expr.Fits.mono all fits.2.1, Expr.Fits.mono all fits.2.2⟩
  | .grouping _ inner => exact Expr.Fits.mono (e := inner) all fits
  | .call id callee paren arguments =>
    exact ⟨all _ fits.1, Expr.Fits.mono all fits.2.1, ExprsFit.mono all fits.2.2⟩
  | .get id object name => exact ⟨all _ fits.1, Expr.Fits.mono all fits.2⟩
  | .set id object name value =>
    exact ⟨all _ fits.1, Expr.Fits.mono all fits.2.1, Expr.Fits.mono all fits.2.2⟩
  | .this id keyword => exact ⟨fits.1, Readable.mono all fits.2.1, fits.2.2⟩
  | .super id keyword method => exact ⟨fits.1, all _ fits.2.1, all _ fits.2.2.1, fits.2.2.2⟩

theorem ExprsFit.mono (all : ∀ o, G o → H o)
    {p : Site} {es : List Expr} (fit : ExprsFit G p es) : ExprsFit H p es := by
  match es with
  | [] => exact True.intro
  | e :: rest => exact ⟨Expr.Fits.mono all fit.1, ExprsFit.mono all fit.2⟩

end

theorem OptionalFits.mono (all : ∀ o, G o → H o)
    {p : Site} {e : Option Expr} (fits : OptionalFits G p e) :
    OptionalFits H p e := by
  cases e with
  | none => exact True.intro
  | some e => exact Expr.Fits.mono all fits

theorem HeritageFits.mono (all : ∀ o, G o → H o)
    {context : Context} {levels : List Level} {name : Token}
    {superclass : Option Variable} (fits : HeritageFits G context levels name superclass) :
    HeritageFits H context levels name superclass := by
  cases superclass with
  | none => exact True.intro
  | some use => exact Readable.mono all fits

mutual

theorem Stmt.Fits.mono (all : ∀ o, G o → H o) {context : Context} {levels : List Level}
    {s : Stmt} (fits : s.Fits G context levels) : s.Fits H context levels := by
  match s with
  | .expression _ e | .print _ e => exact Expr.Fits.mono (e := e) all fits
  | .var id name initializer => exact ⟨all _ fits.1, fits.2.1, OptionalFits.mono all fits.2.2⟩
  | .block id body => exact ⟨all _ fits.1, StmtsFit.mono all fits.2⟩
  | .branch _ condition yes none =>
    exact ⟨Expr.Fits.mono all fits.1, Stmt.Fits.mono all fits.2.1, fits.2.2⟩
  | .branch _ condition yes (some no) =>
    exact ⟨Expr.Fits.mono all fits.1, ⟨Stmt.Fits.mono all fits.2.1.1, fits.2.1.2⟩,
      Stmt.Fits.mono all fits.2.2.1, fits.2.2.2⟩
  | .loop _ condition body =>
    exact ⟨Expr.Fits.mono all fits.1, Stmt.Fits.mono all fits.2.1, fits.2.2⟩
  | .function decl => exact ⟨all _ fits.1, fits.2.1, FunctionDecl.Fits.mono all fits.2.2⟩
  | .returns id keyword value =>
    exact ⟨all _ fits.1, fits.2.1, OptionalFits.mono all fits.2.2⟩
  | .classDecl id name superclass methods =>
    exact ⟨⟨all _ fits.1.1, all _ fits.1.2⟩, fits.2.1, HeritageFits.mono all fits.2.2.1,
      MethodsFit.mono all fits.2.2.2⟩

theorem StmtsFit.mono (all : ∀ o, G o → H o)
    {context : Context} {levels : List Level} {body : List Stmt}
    (fit : StmtsFit G context levels body) : StmtsFit H context levels body := by
  match body with
  | [] => exact True.intro
  | s :: rest => exact ⟨Stmt.Fits.mono all fit.1, StmtsFit.mono all fit.2⟩

theorem FunctionDecl.Fits.mono (all : ∀ o, G o → H o)
    {context : Context} {levels : List Level} {decl : FunctionDecl}
    (fits : decl.Fits G context levels) : decl.Fits H context levels := by
  match decl with
  | .mk id name params body =>
    obtain ⟨marked, params_fit, fit⟩ := fits
    exact ⟨⟨all _ marked.1, all _ marked.2.1, marked.2.2⟩,
      fun param member => ⟨(params_fit param member).1, all _ (params_fit param member).2⟩,
      StmtsFit.mono all fit⟩

theorem MethodsFit.mono (all : ∀ o, G o → H o) {enclosingClass : ClassContext}
    {levels : List Level} {methods : List FunctionDecl} (fit : MethodsFit G enclosingClass levels methods) :
    MethodsFit H enclosingClass levels methods := by
  match methods with
  | [] => exact True.intro
  | m :: rest => exact ⟨FunctionDecl.Fits.mono all fit.1, MethodsFit.mono all fit.2⟩

end

end Mono

end LoxMachine
