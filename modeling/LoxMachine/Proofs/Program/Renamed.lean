import LoxMachine.Program.Form
import LoxMachine.Proofs.Program.Formed

namespace LoxMachine

section Trees

variable (f : NodeId → NodeId)

def Variable.rename (use : Variable) : Variable := ⟨f use.id, use.name⟩

mutual

def Expr.rename : Expr → Expr
  | .literal id value => .literal (f id) value
  | .read use => .read (use.rename f)
  | .assign id name value => .assign (f id) name value.rename
  | .unary id operator right => .unary (f id) operator right.rename
  | .binary id left operator right => .binary (f id) left.rename operator right.rename
  | .logical id left operator right => .logical (f id) left.rename operator right.rename
  | .grouping id inner => .grouping (f id) inner.rename
  | .call id callee paren arguments => .call (f id) callee.rename paren (exprsRename arguments)
  | .get id object name => .get (f id) object.rename name
  | .set id object name value => .set (f id) object.rename name value.rename
  | .this id keyword => .this (f id) keyword
  | .super id keyword method => .super (f id) keyword method

def exprsRename : List Expr → List Expr
  | [] => []
  | e :: rest => e.rename :: exprsRename rest

end

mutual

def Stmt.rename : Stmt → Stmt
  | .expression id e => .expression (f id) (e.rename f)
  | .print id e => .print (f id) (e.rename f)
  | .var id name initializer => .var (f id) name (initializer.map (·.rename f))
  | .block id body => .block (f id) (stmtsRename body)
  | .branch id condition yes none => .branch (f id) (condition.rename f) yes.rename none
  | .branch id condition yes (some no) =>
    .branch (f id) (condition.rename f) yes.rename (some no.rename)
  | .loop id condition body => .loop (f id) (condition.rename f) body.rename
  | .function decl => .function decl.rename
  | .returns id keyword value => .returns (f id) keyword (value.map (·.rename f))
  | .classDecl id name superclass methods =>
    .classDecl (f id) name (superclass.map (·.rename f)) (methodsRename methods)

def stmtsRename : List Stmt → List Stmt
  | [] => []
  | s :: rest => s.rename :: stmtsRename rest

def FunctionDecl.rename : FunctionDecl → FunctionDecl
  | .mk id name params body => .mk (f id) name params (stmtsRename body)

def methodsRename : List FunctionDecl → List FunctionDecl
  | [] => []
  | m :: rest => m.rename :: methodsRename rest

end

theorem exprsRename_eq_map (es : List Expr) : exprsRename f es = es.map (·.rename f) := by
  induction es with
  | nil => rfl
  | cons e rest ih => rw [exprsRename, ih, List.map_cons]

theorem stmtsRename_eq_map (body : List Stmt) : stmtsRename f body = body.map (·.rename f) := by
  induction body with
  | nil => rfl
  | cons s rest ih => rw [stmtsRename, ih, List.map_cons]

theorem methodsRename_eq_map (methods : List FunctionDecl) :
    methodsRename f methods = methods.map (·.rename f) := by
  induction methods with
  | nil => rfl
  | cons m rest ih => rw [methodsRename, ih, List.map_cons]

namespace FunctionDecl

theorem name_rename (decl : FunctionDecl) : (decl.rename f).name = decl.name := by
  cases decl
  rfl

theorem params_rename (decl : FunctionDecl) : (decl.rename f).params = decl.params := by
  cases decl
  rfl

theorem body_rename (decl : FunctionDecl) : (decl.rename f).body = stmtsRename f decl.body := by
  cases decl
  rfl

end FunctionDecl

mutual

theorem Expr.form_rename (e : Expr) : (e.rename f).form = e.form := by
  match e with
  | .literal _ _ | .read _ | .this _ _ | .super _ _ _ => rfl
  | .assign _ _ inner | .unary _ _ inner | .grouping _ inner | .get _ inner _ =>
    simp only [Expr.rename, Expr.form, inner.form_rename]
  | .binary _ left _ right | .logical _ left _ right | .set _ left _ right =>
    simp only [Expr.rename, Expr.form, left.form_rename, right.form_rename]
  | .call _ callee _ arguments =>
    simp only [Expr.rename, Expr.form, callee.form_rename, forms_rename arguments]

theorem forms_rename (es : List Expr) : Expr.forms (exprsRename f es) = Expr.forms es := by
  match es with
  | [] => rfl
  | e :: rest => rw [exprsRename, Expr.forms, Expr.forms, e.form_rename, forms_rename rest]

end

end Trees

section Agreeing

variable {f g : NodeId → NodeId}

mutual

theorem Expr.rename_congr (e : Expr) (agree : ∀ id ∈ e.ids, f id = g id) :
    e.rename f = e.rename g := by
  match e with
  | .literal id _ | .this id _ | .super id _ _ =>
    have here := agree id List.mem_cons_self
    simp only [Expr.rename, here]
  | .read use =>
    have here := agree use.id List.mem_cons_self
    simp only [Expr.rename, Variable.rename, here]
  | .assign id _ inner | .unary id _ inner | .grouping id inner | .get id inner _ =>
    simp only [Expr.ids, List.mem_append, List.mem_singleton] at agree
    have here := agree id (.inr rfl)
    have below := inner.rename_congr fun i member => agree i (.inl member)
    simp only [Expr.rename, here, below]
  | .binary id left _ right | .logical id left _ right | .set id right _ left =>
    simp only [Expr.ids, List.mem_append, List.mem_singleton] at agree
    have here := agree id (.inr rfl)
    have first := left.rename_congr fun i member => agree i (.inl (.inl member))
    have second := right.rename_congr fun i member => agree i (.inl (.inr member))
    simp only [Expr.rename, here, first, second]
  | .call id callee _ arguments =>
    simp only [Expr.ids, List.mem_append, List.mem_singleton] at agree
    have here := agree id (.inr rfl)
    have first := callee.rename_congr fun i member => agree i (.inl (.inl member))
    have others := exprsRename_congr arguments fun i member => agree i (.inl (.inr member))
    simp only [Expr.rename, here, first, others]

theorem exprsRename_congr (es : List Expr) (agree : ∀ id ∈ exprsIds es, f id = g id) :
    exprsRename f es = exprsRename g es := by
  match es with
  | [] => rfl
  | e :: rest =>
    simp only [exprsIds, List.mem_append] at agree
    have first := e.rename_congr fun i member => agree i (.inl member)
    have others := exprsRename_congr rest fun i member => agree i (.inr member)
    rw [exprsRename, exprsRename, first, others]

end

theorem optionalRename_congr (e : Option Expr) (agree : ∀ id ∈ optionalIds e, f id = g id) :
    e.map (·.rename f) = e.map (·.rename g) := by
  cases e with
  | none => rfl
  | some e => exact congrArg some (e.rename_congr agree)

mutual

/-- Only the numbers of its nodes matter for a statement. -/
theorem Stmt.rename_congr (s : Stmt) (agree : ∀ id ∈ s.ids, f id = g id) :
    s.rename f = s.rename g := by
  match s with
  | .expression id e | .print id e =>
    simp only [Stmt.ids, List.mem_append, List.mem_singleton] at agree
    have here := agree id (.inr rfl)
    have below := e.rename_congr fun i member => agree i (.inl member)
    simp only [Stmt.rename, here, below]
  | .var id _ value | .returns id _ value =>
    simp only [Stmt.ids, List.mem_append, List.mem_singleton] at agree
    have here := agree id (.inr rfl)
    have below := optionalRename_congr value fun i member => agree i (.inl member)
    simp only [Stmt.rename, here, below]
  | .block id body =>
    simp only [Stmt.ids, List.mem_append, List.mem_singleton] at agree
    have here := agree id (.inr rfl)
    have inner := stmtsRename_congr body fun i member => agree i (.inl member)
    simp only [Stmt.rename, here, inner]
  | .branch id condition yes none | .loop id condition yes =>
    simp only [Stmt.ids, List.mem_append, List.mem_singleton] at agree
    have here := agree id (.inr rfl)
    have first := condition.rename_congr fun i member => agree i (.inl (.inl member))
    have second := yes.rename_congr fun i member => agree i (.inl (.inr member))
    simp only [Stmt.rename, here, first, second]
  | .branch id condition yes (some no) =>
    simp only [Stmt.ids, List.mem_append, List.mem_singleton] at agree
    have here := agree id (.inr rfl)
    have first := condition.rename_congr fun i member => agree i (.inl (.inl (.inl member)))
    have second := yes.rename_congr fun i member => agree i (.inl (.inl (.inr member)))
    have third := no.rename_congr fun i member => agree i (.inl (.inr member))
    simp only [Stmt.rename, here, first, second, third]
  | .function decl =>
    rw [Stmt.rename, Stmt.rename, decl.rename_congr agree]
  | .classDecl id _ superclass methods =>
    simp only [Stmt.ids, List.mem_append, List.mem_singleton, Option.mem_toList] at agree
    have here := agree id (.inr rfl)
    have inner := methodsRename_congr methods fun i member => agree i (.inl (.inr member))
    have heritage : superclass.map (·.rename f) = superclass.map (·.rename g) := by
      cases superclass with
      | none => rfl
      | some use =>
        have base := agree use.id (.inl (.inl rfl))
        simp only [Option.map_some, Variable.rename, base]
    simp only [Stmt.rename, here, inner, heritage]

theorem stmtsRename_congr (body : List Stmt) (agree : ∀ id ∈ stmtsIds body, f id = g id) :
    stmtsRename f body = stmtsRename g body := by
  match body with
  | [] => rfl
  | s :: rest =>
    simp only [stmtsIds, List.mem_append] at agree
    have first := s.rename_congr fun i member => agree i (.inl member)
    have others := stmtsRename_congr rest fun i member => agree i (.inr member)
    rw [stmtsRename, stmtsRename, first, others]

theorem FunctionDecl.rename_congr (decl : FunctionDecl) (agree : ∀ id ∈ decl.ids, f id = g id) :
    decl.rename f = decl.rename g := by
  match decl with
  | .mk id _ _ body =>
    simp only [FunctionDecl.ids, List.mem_append, List.mem_singleton] at agree
    have here := agree id (.inr rfl)
    have inner := stmtsRename_congr body fun i member => agree i (.inl member)
    simp only [FunctionDecl.rename, here, inner]

theorem methodsRename_congr (methods : List FunctionDecl)
    (agree : ∀ id ∈ methodsIds methods, f id = g id) :
    methodsRename f methods = methodsRename g methods := by
  match methods with
  | [] => rfl
  | m :: rest =>
    simp only [methodsIds, List.mem_append] at agree
    have first := m.rename_congr fun i member => agree i (.inl member)
    have others := methodsRename_congr rest fun i member => agree i (.inr member)
    rw [methodsRename, methodsRename, first, others]

end

end Agreeing

end LoxMachine
