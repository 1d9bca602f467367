import LoxMachine.Proofs.Session.Records
import LoxMachine.Proofs.Session.ScopeMirror

namespace LoxMachine

open Static

namespace Session

theorem Numbers.declares_unique {w : Past} {next : NodeId} (numbers : Numbers w.programs next)
    {decl other : FunctionDecl} (one : w.Declares decl) (two : w.Declares other)
    (same : other.id = decl.id) : other = decl := by
  obtain ⟨s, written, own⟩ := one
  obtain ⟨t, written', own'⟩ := two
  exact congrArg Prod.fst (numbers.unique _ (Past.mem_functionsOf written' own') _
    (Past.mem_functionsOf written own) same)

theorem Numbers.class_unique {w : Past} {next : NodeId} (numbers : Numbers w.programs next)
    {decl : FunctionDecl} {s t : Stmt} (one : w.Written s) (two : w.Written t)
    (own : decl ∈ s.callables) (other : decl ∈ t.callables) : s = t :=
  congrArg Prod.snd (numbers.unique _ (Past.mem_functionsOf one own) _
    (Past.mem_functionsOf two other) rfl)

/-- Whenever a run is at a `this` in a method, with no other class around the place, it stands for
the object of the nearest call of a bound method, which is a call of that method. Whenever a run is
at a `super` there, the method is looked up in the class that the superclass was when the execution
of the class that made the method opened a scope for it, and is bound to the same object. -/
theorem pairs_of_records {programs : List (List Stmt)} {held : List Value} {s : Session}
    {ledger : List Opening} {source : String} {program : List Stmt} {ds : Distances}
    (records : Records programs held s ledger) (accepted : s.Accepts source program ds)
    (depth n : Nat) {body : List Stmt} {around inner : List Enclosure} {id : NodeId} {name : Token}
    {superclass : Option Variable} {methods : List FunctionDecl} {decl : FunctionDecl}
    (member : body ∈ program :: programs)
    (stands : Stands body around (.classDecl id name superclass methods)) (which : decl ∈ methods)
    (outside : innermostClass inner = none) :
    let m := s.point depth program ds n
    let past := s.ledgerAt depth program ds n ledger
    (∀ use keyword, Evaluates decl.body inner (.this use keyword) →
      m.control = .evaluate (.this use keyword) →
      ∃ method o k f, method.decl = decl ∧ m.CallOf past method (.object o) k f ∧
        Machine.step (s.setting depth ds) m = m.give (.object o)) ∧
    ∀ use keyword query, Evaluates decl.body inner (.super use keyword query) →
      m.control = .evaluate (.super use keyword query) →
      ∃ method o k f base, method.decl = decl ∧ m.CallOf past method (.object o) k f ∧
        past[method.scope]? = some (.heritage name methods base) ∧
        (∃ entry, (entry, method) ∈ Machine.methodTable method.scope methods) ∧
        Machine.step (s.setting depth ds) m =
          match base.findMethod query.lexeme with
          | some found => m.giveBoundMethod found (.object o)
          | none => m.complain query (.undefinedProperty query.lexeme) := by
  intro m past
  have sound := sound_of_reachable (reachable_of_records records)
  obtain ⟨accounts, earlier⟩ := accounts_of_records records
  have numbers := accepted.numbers earlier
  obtain ⟨fits, recorded, _⟩ := accepted.recorded sound accounts depth n
  have resolves := accepted.resolves sound
  obtain ⟨formed, ds', checked⟩ := numbers.accepted body member
  have fit : StmtsFit (Among (program :: programs)) ⟨.topLevel, .outside⟩ [] body :=
    fit_of_accepted formed checked fun o here => ⟨body, member, here⟩
  have written : Past.Written ⟨program :: programs, past⟩ (.classDecl id name superclass methods) :=
    ⟨body, member, around, stands⟩
  have only : ∀ other, Past.Declares ⟨program :: programs, past⟩ other → other.id = decl.id →
      other = decl :=
    fun other declared same =>
      numbers.declares_unique (w := ⟨program :: programs, past⟩) ⟨_, written, which⟩ declared same
  have unique := accepted.unique sound
  refine ⟨fun use keyword evaluates evaluating => ?_,
    fun use keyword query evaluates evaluating => ?_⟩
  · obtain ⟨p, outer, k, ⟨word, readable, _⟩, here, inside⟩ :=
      Machine.inside_of_evaluating unique fits fit stands which outside
        (e := .this use keyword) (fun _ fits => fits.2.1.1) evaluates evaluating
    obtain ⟨f, method, a, call, same, _, named, outward, around_receiver, _⟩ :=
      Machine.callOf_of_inside recorded only here inside
    obtain ⟨o, rfl⟩ := fits.store.objects _ a (fits.store.ne_globals around_receiver) named
    exact ⟨method, o, k, f, same, call,
      Machine.step_this resolves evaluating word readable.1 inside outward named⟩
  · obtain ⟨p, outer, k, ⟨word, known, _⟩, here, inside⟩ :=
      Machine.inside_of_evaluating unique fits fit stands which outside
        (e := .super use keyword query) (fun _ fits => fits.2.1) evaluates evaluating
    obtain ⟨base_use, rfl⟩ := superclass_of_evaluates checked stands which outside evaluates
    obtain ⟨f, method, a, call, same, method_recorded, named, outward, around_receiver, further,
      mirrors⟩ := Machine.callOf_of_inside recorded only here inside
    obtain ⟨o, rfl⟩ := fits.store.objects _ a (fits.store.ne_globals around_receiver) named
    obtain ⟨own, table, base, opened, made, kept, own_id, own_use, own_written⟩ :=
      Machine.heritage_of_method recorded method_recorded mirrors
    have declares : decl ∈ table := by
      obtain ⟨entry, member⟩ := made
      exact same ▸ (Machine.mem_methodTable member).1
    cases numbers.class_unique (w := ⟨program :: programs, past⟩) written own_written which declares
    exact ⟨method, o, k, f, base, same, call, opened, made,
      Machine.step_super resolves evaluating word known inside outward named further kept⟩

/-- A method of a class with a superclass, in which a function uses `super` and `this`. -/
def innerMethod : FunctionDecl :=
  .mk 13 (firstLine "m") []
    [.function (.mk 9 (firstLine "f") []
      [.expression 6 (.call 5 (.super 4 ⟨.keyword .superWord, "super", 1⟩ (firstLine "m"))
          ⟨.symbol .rightParen, ")", 1⟩ []),
        .returns 8 ⟨.keyword .returnWord, "return", 1⟩
          (some (.this 7 ⟨.keyword .thisWord, "this", 1⟩))]),
      .returns 12 ⟨.keyword .returnWord, "return", 1⟩
        (some (.call 11 (.read ⟨10, firstLine "f"⟩) ⟨.symbol .rightParen, ")", 1⟩ []))]

def inheritedProgram : List Stmt :=
  [.classDecl 2 (firstLine "A") none [.mk 1 (firstLine "m") [] []],
    .classDecl 14 (firstLine "B") (some ⟨3, firstLine "A"⟩) [innerMethod],
    .classDecl 16 (firstLine "C") (some ⟨15, firstLine "B"⟩) [],
    .expression 21 (.call 20 (.get 19 (.call 18 (.read ⟨17, firstLine "C"⟩)
      ⟨.symbol .rightParen, ")", 1⟩ []) (firstLine "m")) ⟨.symbol .rightParen, ")", 1⟩ [])]

def inheritedSource : String :=
  "class A { m() {} } " ++
  "class B < A { m() { fun f() { super.m(); return this; } return f(); } } " ++
  "class C < B {} C().m();"

/-- In the function, `super` and `this` belong to the call of the method that is inherited. -/
theorem pairs_of_inherited :
    let s := empty "main"
    let ds : Distances := [(4, 3), (7, 2), (10, 0)]
    let point := s.point 9 inheritedProgram ds
    let past := fun n => s.ledgerAt 9 inheritedProgram ds n [.global]
    s.Accepts inheritedSource inheritedProgram ds ∧
      (∃ method o k f, method.decl = innerMethod ∧
        (point 36).CallOf (past 36) method (.object o) k f ∧
        Machine.step (s.setting 9 ds) (point 36) = (point 36).give (.object o)) ∧
      ∃ method o k f base, method.decl = innerMethod ∧
        (point 29).CallOf (past 29) method (.object o) k f ∧
        (past 29)[method.scope]? = some (.heritage (firstLine "B") [innerMethod] base) := by
  intro s ds point past
  have read : s.read inheritedSource = ({ s with nextId := 22 }, .ok inheritedProgram) := by cbv
  have accepted : s.Accepts inheritedSource inheritedProgram ds := ⟨congrArg Prod.snd read, by rfl⟩
  have stands : Stands inheritedProgram []
      (.classDecl 14 (firstLine "B") (some ⟨3, firstLine "A"⟩) [innerMethod]) :=
    .top (List.mem_cons_of_mem _ List.mem_cons_self)
  have outside : innermostClass [.function] = none := rfl
  have function : Stands innerMethod.body [] _ := .top List.mem_cons_self
  have in_this : Evaluates innerMethod.body [.function] (.this 7 ⟨.keyword .thisWord, "this", 1⟩) :=
    ⟨_, .function function (List.mem_cons_of_mem _ List.mem_cons_self), _,
      List.mem_singleton_self _, .itself _⟩
  have in_super : Evaluates innerMethod.body [.function]
      (.super 4 ⟨.keyword .superWord, "super", 1⟩ (firstLine "m")) :=
    ⟨_, .function function List.mem_cons_self, _, List.mem_singleton_self _,
      .inside List.mem_cons_self (.itself _)⟩
  have at_this : ((empty "main").point 9 inheritedProgram [(4, 3), (7, 2), (10, 0)] 36).control =
      .evaluate (.this 7 ⟨.keyword .thisWord, "this", 1⟩) := by rfl
  have at_super : ((empty "main").point 9 inheritedProgram [(4, 3), (7, 2), (10, 0)] 29).control =
      .evaluate (.super 4 ⟨.keyword .superWord, "super", 1⟩ (firstLine "m")) := by rfl
  have pairs := fun n => pairs_of_records (.empty "main") accepted 9 n List.mem_cons_self stands
    (List.mem_singleton_self innerMethod) outside
  obtain ⟨method, o, k, f, base, same, call, opened, _⟩ :=
    (pairs 29).2 _ _ _ in_super at_super
  exact ⟨accepted, (pairs 36).1 _ _ in_this at_this, method, o, k, f, base, same, call, opened⟩

end Session

end LoxMachine
