import LoxMachine.Scope.Static
import LoxMachine.Proofs.Program.Formed

namespace LoxMachine

/-- A construct of the text that statements stand in. -/
inductive Enclosure where
  | block
  | function
  | method (name : Token)
  | classBody (superclass : Option Variable)

def innermostCallable (around : List Enclosure) : Option Enclosure :=
  around.find? fun
    | .function | .method _ => true
    | .block | .classBody _ => false

def innermostClass (around : List Enclosure) : Option Enclosure :=
  around.find? fun
    | .classBody _ => true
    | .block | .function | .method _ => false

/-- A statement of a program and the constructs around it, the innermost first. No statement stands
in a class but inside a method of it. -/
inductive Stands (program : List Stmt) : List Enclosure → Stmt → Prop
  | top {s : Stmt} (member : s ∈ program) : Stands program [] s
  | block {around : List Enclosure} {id : NodeId} {body : List Stmt} {s : Stmt}
      (outer : Stands program around (.block id body)) (member : s ∈ body) :
      Stands program (.block :: around) s
  | yes {around : List Enclosure} {id : NodeId} {condition : Expr} {yes : Stmt} {no : Option Stmt}
      (outer : Stands program around (.branch id condition yes no)) : Stands program around yes
  | no {around : List Enclosure} {id : NodeId} {condition : Expr} {yes no : Stmt}
      (outer : Stands program around (.branch id condition yes (some no))) :
      Stands program around no
  | loop {around : List Enclosure} {id : NodeId} {condition : Expr} {body : Stmt}
      (outer : Stands program around (.loop id condition body)) : Stands program around body
  | function {around : List Enclosure} {decl : FunctionDecl} {s : Stmt}
      (outer : Stands program around (.function decl)) (member : s ∈ decl.body) :
      Stands program (.function :: around) s
  | method {around : List Enclosure} {id : NodeId} {name : Token} {superclass : Option Variable}
      {methods : List FunctionDecl} {m : FunctionDecl} {s : Stmt}
      (outer : Stands program around (.classDecl id name superclass methods)) (which : m ∈ methods)
      (member : s ∈ m.body) : Stands program (.method m.name :: .classBody superclass :: around) s

/-- The expressions that an expression is made from. -/
def Expr.parts : Expr → List Expr
  | .literal _ _ | .read _ | .this _ _ | .super _ _ _ => []
  | .assign _ _ inner | .unary _ _ inner | .grouping _ inner | .get _ inner _ => [inner]
  | .binary _ left _ right | .logical _ left _ right => [left, right]
  | .call _ callee _ arguments => callee :: arguments
  | .set _ object _ value => [value, object]

def Stmt.exprs : Stmt → List Expr
  | .expression _ e | .print _ e | .branch _ e _ _ | .loop _ e _ => [e]
  | .var _ _ value | .returns _ _ value => value.toList
  | .block _ _ | .function _ | .classDecl _ _ _ _ => []

/-- An expression is another one or lies somewhere within it. -/
inductive Expr.Contains : Expr → Expr → Prop
  | itself (e : Expr) : e.Contains e
  | inside {e part inner : Expr} (member : part ∈ e.parts) (deeper : part.Contains inner) :
      e.Contains inner

/-- A place of a program evaluates an expression, at whatever depth of a statement. -/
def Evaluates (program : List Stmt) (around : List Enclosure) (inner : Expr) : Prop :=
  ∃ s, Stands program around s ∧ ∃ e ∈ s.exprs, e.Contains inner

/-- A name stands in a list, and an equal one stands before it. -/
def Repeats (names : List Token) (name : Token) : Prop :=
  ∃ first between last other, names = first ++ other :: between ++ name :: last ∧
    other.lexeme = name.lexeme

/-- A program breaks a rule at a token. -/
inductive Violates (program : List Stmt) : StaticRule → Token → Prop
  | block {around : List Enclosure} {id : NodeId} {body : List Stmt} {name : Token}
      (stands : Stands program around (.block id body))
      (twice : Repeats (body.flatMap Stmt.declared) name) :
      Violates program .declaredTwice name
  | function {around : List Enclosure} {decl : FunctionDecl} {name : Token}
      (stands : Stands program around (.function decl))
      (twice : Repeats (decl.params ++ decl.body.flatMap Stmt.declared) name) :
      Violates program .declaredTwice name
  | method {around : List Enclosure} {id : NodeId} {owner : Token} {superclass : Option Variable}
      {methods : List FunctionDecl} {m : FunctionDecl} {name : Token}
      (stands : Stands program around (.classDecl id owner superclass methods)) (which : m ∈ methods)
      (twice : Repeats (m.params ++ m.body.flatMap Stmt.declared) name) :
      Violates program .declaredTwice name
  | initializer {around : List Enclosure} {id : NodeId} {name : Token} {e : Expr} {use : Variable}
      (stands : Stands program around (.var id name (some e))) (inner : around ≠ [])
      (reads : e.Contains (.read use)) (same : use.name.lexeme = name.lexeme) :
      Violates program .ownInitializer use.name
  | returnOutside {around : List Enclosure} {id : NodeId} {keyword : Token} {value : Option Expr}
      (stands : Stands program around (.returns id keyword value))
      (outside : innermostCallable around = none) : Violates program .returnOutside keyword
  | returnFromInitializer {around : List Enclosure} {id : NodeId} {keyword name : Token} {e : Expr}
      (stands : Stands program around (.returns id keyword (some e)))
      (inside : innermostCallable around = some (.method name)) (init : name.lexeme = "init")
      (given : ∀ literal, e ≠ .literal literal .nil) :
      Violates program .returnFromInitializer keyword
  | thisOutside {around : List Enclosure} {id : NodeId} {keyword : Token}
      (evaluates : Evaluates program around (.this id keyword))
      (outside : innermostClass around = none) : Violates program .thisOutside keyword
  | superOutside {around : List Enclosure} {id : NodeId} {keyword method : Token}
      (evaluates : Evaluates program around (.super id keyword method))
      (outside : innermostClass around = none) : Violates program .superOutside keyword
  | superWithoutSuperclass {around : List Enclosure} {id : NodeId} {keyword method : Token}
      (evaluates : Evaluates program around (.super id keyword method))
      (inside : innermostClass around = some (.classBody none)) :
      Violates program .superWithoutSuperclass keyword
  | selfInheritance {around : List Enclosure} {id : NodeId} {name : Token} {use : Variable}
      {methods : List FunctionDecl}
      (stands : Stands program around (.classDecl id name (some use) methods))
      (same : use.name.lexeme = name.lexeme) : Violates program .selfInheritance use.name

theorem Repeats.append {names : List Token} {name : Token} (repeated : Repeats names name)
    (more : List Token) : Repeats (names ++ more) name := by
  obtain ⟨first, between, last, other, rfl, same⟩ := repeated
  exact ⟨first, between, last ++ more, other, by simp, same⟩

theorem Repeats.of_mem {names : List Token} {name other : Token} (member : other ∈ names)
    (same : other.lexeme = name.lexeme) : Repeats (names ++ [name]) name := by
  obtain ⟨first, between, rfl⟩ := List.append_of_mem member
  exact ⟨first, between, [], other, rfl, same⟩

theorem Repeats.not_nodup {names : List Token} {name : Token} (repeated : Repeats names name) :
    ¬ (names.map (·.lexeme)).Nodup := by
  obtain ⟨first, between, last, other, rfl, same⟩ := repeated
  intro distinct
  simp [List.nodup_append, List.nodup_cons, same] at distinct

namespace Static

variable {around : List Enclosure}

/-- The context that the constructs around a place make. -/
def contextOf (around : List Enclosure) : Context where
  function :=
    match innermostCallable around with
    | none => .topLevel
    | some (.method name) => methodContext name
    | some _ => .function
  enclosingClass :=
    match innermostClass around with
    | some (.classBody superclass) => classContext superclass
    | _ => .outside

theorem contextOf_function (around : List Enclosure) :
    contextOf (.function :: around) = ⟨.function, (contextOf around).enclosingClass⟩ := rfl

theorem contextOf_method (around : List Enclosure) (name : Token) (superclass : Option Variable) :
    contextOf (.method name :: .classBody superclass :: around) =
      ⟨methodContext name, classContext superclass⟩ := rfl

theorem innermostCallable_cases (around : List Enclosure) :
    innermostCallable around = none ∨ innermostCallable around = some .function ∨
      ∃ name, innermostCallable around = some (.method name) := by
  cases found : innermostCallable around with
  | none => exact .inl rfl
  | some enclosure =>
    have callable := List.find?_some found
    cases enclosure with
    | function => exact .inr (.inl rfl)
    | method name => exact .inr (.inr ⟨name, rfl⟩)
    | block | classBody => cases callable

theorem innermostClass_cases (around : List Enclosure) :
    innermostClass around = none ∨
      ∃ superclass, innermostClass around = some (.classBody superclass) := by
  cases found : innermostClass around with
  | none => exact .inl rfl
  | some enclosure =>
    have isClass := List.find?_some found
    cases enclosure with
    | classBody superclass => exact .inr ⟨superclass, rfl⟩
    | block | function | method => cases isClass

theorem topLevel_iff : (contextOf around).function = .topLevel ↔ innermostCallable around = none := by
  rcases innermostCallable_cases around with found | found | ⟨name, found⟩
  · simp [contextOf, found]
  · simp [contextOf, found]
  · simp only [contextOf, found, methodContext]
    split <;> simp

theorem initializer_iff : (contextOf around).function = .initializer ↔
    ∃ name, innermostCallable around = some (.method name) ∧ name.lexeme = "init" := by
  rcases innermostCallable_cases around with found | found | ⟨name, found⟩
  · simp [contextOf, found]
  · simp [contextOf, found]
  · by_cases init : name.lexeme = "init"
    · simp [contextOf, found, methodContext, init]
    · simp [contextOf, found, methodContext, init]

theorem outside_iff :
    (contextOf around).enclosingClass = .outside ↔ innermostClass around = none := by
  rcases innermostClass_cases around with found | ⟨superclass, found⟩
  · simp [contextOf, found]
  · cases superclass <;> simp [contextOf, found, classContext]

theorem plain_iff : (contextOf around).enclosingClass = .plain ↔
    innermostClass around = some (.classBody none) := by
  rcases innermostClass_cases around with found | ⟨superclass, found⟩
  · simp [contextOf, found]
  · cases superclass <;> simp [contextOf, found, classContext]

end Static

end LoxMachine
