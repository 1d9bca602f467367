import LoxMachine.Proofs.Machine.Values
import LoxMachine.Proofs.Session.Fields

namespace LoxMachine

open Machine (methodTable)

namespace Machine

theorem get?_methodTable (scope : ScopeId) (methods : List FunctionDecl) (name : String) :
    (∃ before decl after, methods = before ++ decl :: after ∧ decl.name.lexeme = name ∧
        (∀ d ∈ after, d.name.lexeme ≠ name) ∧
        (methodTable scope methods).get? name = some ⟨decl, scope, name == "init"⟩) ∨
      (∀ d ∈ methods, d.name.lexeme ≠ name) ∧ (methodTable scope methods).get? name = none := by
  induction methods using List.reverseRecOn with
  | nil => exact .inr ⟨List.forall_mem_nil _, rfl⟩
  | append_singleton methods last ih =>
    have table : methodTable scope (methods ++ [last]) = (methodTable scope methods).put
        last.name.lexeme ⟨last, scope, last.name.lexeme == "init"⟩ := by
      rw [methodTable, List.foldl_append]
      rfl
    rw [table, Table.get?_put]
    by_cases named : name = last.name.lexeme
    · refine .inl ⟨methods, last, [], rfl, named.symm, List.forall_mem_nil _, ?_⟩
      rw [if_pos named, named]
    · have other : last.name.lexeme ≠ name := fun same => named same.symm
      rw [if_neg named]
      rcases ih with ⟨before, decl, after, rfl, same, later, found⟩ | ⟨none, absent⟩
      · refine .inl ⟨before, decl, after ++ [last], List.append_assoc _ _ _, same, ?_, found⟩
        intro d member
        rcases List.mem_append.mp member with old | new
        · exact later d old
        · exact List.mem_singleton.mp new ▸ other
      · refine .inr ⟨fun d member => ?_, absent⟩
        rcases List.mem_append.mp member with old | new
        · exact none d old
        · exact List.mem_singleton.mp new ▸ other

theorem Makes.methods {m : Machine} {k : Class} {methods : List FunctionDecl}
    (makes : m.Makes k methods) : ∃ scope, k.methods = methodTable scope methods := by
  cases makes with
  | alone | extending => exact ⟨_, rfl⟩

end Machine

theorem Store.Becomes.identity {s t : Store} (becomes : s.Becomes t) :
    s.nextIdentity ≤ t.nextIdentity := by
  induction becomes with
  | refl => exact Nat.le_refl _
  | tail _ change ih =>
    refine Nat.le_trans ih ?_
    cases change with
    | define | openScope | instantiate | setField => exact Nat.le_refl _
    | identify => exact Nat.le_succ _
    | callHost f arguments =>
      unfold Store.callHost
      split <;> exact Nat.le_refl _

namespace Session

variable {past : List Event} {k : Class} {name : String} {identity : Identity}

def Declared (past : List Event) (k : Class) (methods : List FunctionDecl) : Prop :=
  ∃ c m, .step c m ∈ past ∧ m.Makes k methods

def Declares (past : List Event) (k : Class) (name : String) (method : Method) : Prop :=
  ∃ before decl after scope, Declared past k (before ++ decl :: after) ∧
    k.methods = methodTable scope (before ++ decl :: after) ∧ decl.name.lexeme = name ∧
      (∀ d ∈ after, d.name.lexeme ≠ name) ∧ method = ⟨decl, scope, name == "init"⟩

def Lacks (past : List Event) (k : Class) (name : String) : Prop :=
  ∃ methods, Declared past k methods ∧ ∀ d ∈ methods, d.name.lexeme ≠ name

/-- The method is that of the nearest class, upward from the given one, that declares one. -/
def Nearest (past : List Event) (k : Class) (name : String) (method : Method) : Prop :=
  ∃ nearer owner further, k.ancestry = nearer ++ owner :: further ∧
    (∀ other ∈ nearer, Lacks past other name) ∧ Declares past owner name method

def Known (past : List Event) (identity : Identity) : Value → Prop
  | .closure f => f.identity < identity
  | .cls k => ∀ other ∈ k.ancestry, ∃ methods, Declared past other methods
  | .object o => ∀ other ∈ o.cls.ancestry, ∃ methods, Declared past other methods
  | .nil | .bool _ | .number _ | .string _ | .native _ => True

theorem Declared.later {more : List Event} {methods : List FunctionDecl}
    (declared : Declared past k methods) : Declared (past ++ more) k methods := by
  obtain ⟨c, m, member, makes⟩ := declared
  exact ⟨c, m, List.mem_append_left _ member, makes⟩

theorem Known.later {a : Value} (known : Known past identity a) (more : List Event)
    {later : Identity} (grown : identity ≤ later) : Known (past ++ more) later a := by
  have classes : ∀ {k : Class}, (∀ other ∈ k.ancestry, ∃ methods, Declared past other methods) →
      ∀ other ∈ k.ancestry, ∃ methods, Declared (past ++ more) other methods := by
    intro k each other member
    obtain ⟨methods, declared⟩ := each other member
    exact ⟨methods, declared.later⟩
  cases a with
  | closure f => exact Nat.lt_of_lt_of_le known grown
  | cls k => exact classes known
  | object o => exact classes known
  | nil | bool _ | number _ | string _ | native _ => exact True.intro

theorem mem_ancestry_cases {other : Class} (member : other ∈ k.ancestry) :
    other = k ∨ ∃ base, k.superclass = some base ∧ other ∈ base.ancestry := by
  obtain ⟨identity, own, superclass, methods⟩ := k
  cases superclass with
  | none => exact .inl (List.mem_singleton.mp member)
  | some base =>
    rcases List.mem_cons.mp member with rfl | further
    · exact .inl rfl
    · exact .inr ⟨base, rfl, further⟩

theorem ancestry_superclass {base other : Class} (extended : k.superclass = some base)
    (member : other ∈ base.ancestry) : other ∈ k.ancestry := by
  obtain ⟨identity, own, superclass, methods⟩ := k
  cases extended
  exact List.mem_cons_of_mem _ member

theorem known_toValue (l : Literal) : Known past identity l.toValue := by
  cases l <;> exact True.intro

theorem known_step {c : Setting} {m : Machine}
    (only : m.Only (Known past m.store.nextIdentity)) :
    (Machine.step c m).Only (Known (past ++ [.step c m]) (Machine.step c m).store.nextIdentity) := by
  have grown := Store.Becomes.identity (Machine.changes_step c m)
  refine (only.imp fun a known => known.later _ grown).step ⟨⟨?_, ?_, ?_, ?_, ?_⟩, ?_⟩
  · exact known_toValue
  · intro f same bound
    change f.identity < _
    exact same ▸ bound
  · exact fun k known => known
  · exact fun o known => known
  · exact fun k base known extended other member => known other (ancestry_superclass extended member)
  · intro k methods makes inherited other member
    rcases mem_ancestry_cases member with rfl | ⟨base, extended, further⟩
    · exact ⟨methods, c, m, List.mem_append_right _ (List.mem_singleton_self _), makes⟩
    · exact inherited base extended other further

variable {programs : List (List Stmt)} {held : List Value} {s : Session} {events : List Event}
  {program : List Stmt} {ds : Distances} {depth n : Nat} {m : Machine}

theorem known_point (only : s.store.Only (Known events s.store.nextIdentity))
    (kept : ∀ a ∈ held, Known events s.store.nextIdentity a) (depth : Nat) (program : List Stmt)
    (ds : Distances) (n : Nat) :
    let m := s.point depth program ds n
    let past := s.eventsAt depth program ds n events
    m.Only (Known past m.store.nextIdentity) ∧ ∀ a ∈ held, Known past m.store.nextIdentity a := by
  refine holds_eventsAt (P := fun past m => m.Only (Known past m.store.nextIdentity) ∧
    ∀ a ∈ held, Known past m.store.nextIdentity a) ⟨?_, kept⟩ (fun j before => ?_) n
  · refine ⟨only, ?_, List.forall_mem_nil _⟩
    exact List.forall_mem_singleton.mpr (List.forall_mem_nil _)
  · refine ⟨known_step before.1, fun a member => ?_⟩
    exact (before.2 a member).later _ (Store.Becomes.identity (Machine.changes_step _ _))

theorem known_of_history (history : History programs held s events) :
    s.store.Only (Known events s.store.nextIdentity) ∧
      ∀ a ∈ held, Known events s.store.nextIdentity a := by
  induction history with
  | empty file =>
    refine ⟨⟨fun e entry member => ?_, fun o entry member => ?_, List.forall_mem_nil _⟩,
      List.forall_mem_nil _⟩
    · cases e <;> cases member
    · cases member
  | keep _ holds ih =>
    refine ⟨ih.1, List.forall_mem_cons.mpr ⟨?_, ih.2⟩⟩
    rcases holds with ⟨e, name, found⟩ | ⟨o, name, found⟩ | given
    · exact ih.1.get found
    · exact ih.1.field found
    · exact ih.1.kept _ given
  | native _ name arity function ih =>
    refine ⟨Store.Only.define ⟨?_, ?_, ?_⟩ _ name True.intro,
      List.forall_mem_cons.mpr ⟨True.intro, ?_⟩⟩
    · exact fun e entry member => (ih.1.bound e entry member).later _ (Nat.le_refl _)
    · exact fun o entry member => (ih.1.fields o entry member).later _ (Nat.le_refl _)
    · exact fun a member => (ih.1.kept a member).later _ (Nat.le_refl _)
    · exact fun a member => (ih.2 a member).later _ (Nat.le_refl _)
  | setGlobal _ name known ih =>
    exact ⟨ih.1.define _ name (of_known ih.2 known_toValue known), ih.2⟩
  | entrust _ known ih =>
    have value := of_known ih.2 known_toValue known
    exact ⟨ih.1.keep (List.forall_mem_singleton.mpr value), ih.2⟩
  | rejected _ result ih =>
    rw [eq_of_rejected result, read_eq]
    exact ih
  | ran history limits accepted ended ih =>
    obtain ⟨only, kept⟩ := known_point ih.1 ih.2 limits.depth _ _ limits.steps
    exact ⟨only.store, kept⟩

/-- Only what is known is reached. -/
theorem known_of_reaches (only : m.Only (Known past identity))
    (kept : ∀ a ∈ held, Known past identity a) {a : Value} (reaches : m.Reaches held (.value a)) :
    Known past identity a := by
  have general : ∀ {x : Thing}, m.Reaches held x → ∀ a, x = .value a → Known past identity a := by
    intro x reaches
    induction reaches with
    | globals | current | leaving | enclosing | closure | method => exact fun _ same => nomatch same
    | held member =>
      rintro _ ⟨⟩
      exact kept _ member
    | control member =>
      rintro _ ⟨⟩
      exact only.control _ member
    | waiting member value =>
      rintro _ ⟨⟩
      exact only.frames _ member _ value
    | bound _ found _ =>
      rintro _ ⟨⟩
      exact only.store.get found
    | field _ found _ =>
      rintro _ ⟨⟩
      exact only.store.field found
    | kept member =>
      rintro _ ⟨⟩
      exact only.store.kept _ member
    | @kind o _ ih =>
      rintro _ ⟨⟩
      exact ih (.object o) rfl
    | base _ extended ih =>
      rintro _ ⟨⟩
      exact fun other member => ih _ rfl other (ancestry_superclass extended member)
  exact general reaches a rfl

/-- The method has become a function that nothing else is equal to, in a new scope that binds
nothing but its receiver. -/
structure Binds (held : List Value) (m next : Machine) (method : Method) (o : Object) (f : Closure) :
    Prop where
  decl : f.decl = method.decl
  isInitializer : f.isInitializer = method.isInitializer
  new : f.scope = m.store.scopes.scopes.size
  enclosing : next.store.scopes.enclosing f.scope = some method.scope
  receiver : next.store.scopes.bindings f.scope = [("this", .object o)]
  fresh : ∀ a, m.Reaches held (.value a) → a.isEqual (.closure f) = false

/-- What comes of reading a property of the object in a state, after all that happened before; the
frame that waits for the object is taken off in the base state. -/
inductive Reads (past : List Event) (held : List Value) (m : Machine) (o : Object) (name : Token)
    (base next : Machine) : Prop
  | field {v} (latest : Latest past o.id name.lexeme v) (gives : next = base.give v)
  | method {method f store} (never : Never past o.id name.lexeme)
      (nearest : Nearest past o.cls name.lexeme method)
      (gives : next = { base with control := .value (.closure f), store })
      (binds : Binds held m next method o f)
  | missing (never : Never past o.id name.lexeme)
      (lacks : ∀ k ∈ o.cls.ancestry, Lacks past k name.lexeme)
      (fails : next = base.complain name (.undefinedProperty name.lexeme))

theorem nearest_of_findMethod {method : Method}
    (known : ∀ other ∈ k.ancestry, ∃ methods, Declared past other methods)
    (found : k.findMethod name = some method) : Nearest past k name method := by
  rw [Class.findMethod_eq] at found
  obtain ⟨nearer, owner, further, split, here, absent⟩ := List.findSome?_eq_some_iff.mp found
  refine ⟨nearer, owner, further, split, fun other member => ?_, ?_⟩
  · obtain ⟨methods, declared⟩ := known other (split ▸ List.mem_append_left _ member)
    obtain ⟨_, _, _, makes⟩ := id declared
    obtain ⟨scope, table⟩ := makes.methods
    rcases Machine.get?_methodTable scope methods name with ⟨_, _, _, _, _, _, there⟩ | ⟨none, _⟩
    · cases (absent other member).symm.trans (table ▸ there)
    · exact ⟨methods, declared, none⟩
  · obtain ⟨methods, declared⟩ := known owner
      (split ▸ List.mem_append_right _ List.mem_cons_self)
    obtain ⟨_, _, _, makes⟩ := id declared
    obtain ⟨scope, table⟩ := makes.methods
    rcases Machine.get?_methodTable scope methods name with
      ⟨before, decl, after, rfl, named, later, there⟩ | ⟨_, none⟩
    · rw [table, there] at here
      exact ⟨before, decl, after, scope, declared, table, named, later, (Option.some.inj here).symm⟩
    · rw [table, none] at here
      cases here

theorem lacks_of_findMethod
    (known : ∀ other ∈ k.ancestry, ∃ methods, Declared past other methods)
    (none : k.findMethod name = none) : ∀ other ∈ k.ancestry, Lacks past other name := by
  rw [Class.findMethod_eq] at none
  intro other member
  obtain ⟨methods, declared⟩ := known other member
  obtain ⟨_, _, _, makes⟩ := id declared
  obtain ⟨scope, table⟩ := makes.methods
  rcases Machine.get?_methodTable scope methods name with ⟨_, _, _, _, _, _, there⟩ | ⟨absent, _⟩
  · cases (List.findSome?_eq_none_iff.mp none other member).symm.trans (table ▸ there)
  · exact ⟨methods, declared, absent⟩

theorem binds_giveBoundMethod (only : m.Only (Known past m.store.nextIdentity))
    (kept : ∀ a ∈ held, Known past m.store.nextIdentity a) (base : Machine)
    (same : base.store = m.store) (method : Method) (o : Object) :
    Binds held m (base.giveBoundMethod method (.object o)) method o
      (m.store.bind method (.object o)).2 := by
  let opened := (m.store.openScope method.scope).1
  have inside : m.store.scopes.scopes.size < opened.scopes.scopes.size :=
    Nat.lt_of_lt_of_eq (Nat.lt_succ_self _) (Forest.size_grow _ _).symm
  refine ⟨rfl, rfl, rfl, ?_, ?_, fun a reaches => ?_⟩
  · rw [Machine.giveBoundMethod, same]
    exact (Forest.enclosing_define _ _ _ _ _).trans
      ((m.store.scopes.enclosing_grow _ _).trans (if_pos rfl))
  · have empty : opened.scopes.bindings m.store.scopes.scopes.size = [] := by
      refine (m.store.scopes.bindings_grow _ _).trans ?_
      rw [Forest.bindings, Array.getElem?_eq_none (Nat.le_refl _)]
    have bound : (opened.define m.store.scopes.scopes.size "this" (.object o)).scopes.bindings
        m.store.scopes.scopes.size = [("this", .object o)] := by
      rw [Store.define, Forest.bindings_define, if_pos ⟨rfl, inside⟩, empty]
      rfl
    rw [Machine.giveBoundMethod, same]
    exact bound
  · have known := known_of_reaches only kept reaches
    cases a with
    | closure g => exact beq_eq_false_iff_ne.mpr (Nat.ne_of_lt known)
    | _ => rfl

/-- Reading a property gives the latest value of the field, or else the nearest method. -/
theorem reads_of_property (history : History programs held s events) (depth : Nat)
    (program : List Stmt) (ds : Distances) (n : Nat) {o : Object} {name : Token}
    {waiting : List Frame} (control : (s.point depth program ds n).control = .value (.object o))
    (frames : (s.point depth program ds n).frames = .property name :: waiting) :
    let m := s.point depth program ds n
    Reads (s.eventsAt depth program ds n events) held m o name { m with frames := waiting }
      (Machine.step (s.setting depth ds) m) := by
  intro m
  obtain ⟨only, kept⟩ := known_of_history history
  obtain ⟨only, kept⟩ := known_point only kept depth program ds n
  have reflects := reflects_point history (reflects_of_history history) depth program ds n
  have known := only.control (.object o) (control ▸ List.mem_singleton_self _)
  let base := { m with frames := waiting }
  have next : Machine.step (s.setting depth ds) m = base.readProperty name (.object o) := by
    simp only [Machine.step, m, control, frames]
    rfl
  rw [next, Machine.readProperty]
  rcases latest_or_never (s.eventsAt depth program ds n events) o.id name.lexeme with
    ⟨v, latest⟩ | never
  · have found : (base.store.fieldsOf o).get? name.lexeme = some v :=
      (reflects o name.lexeme v).mpr latest
    rw [found]
    exact .field latest rfl
  · have absent : (base.store.fieldsOf o).get? name.lexeme = none := by
      cases found : (base.store.fieldsOf o).get? name.lexeme with
      | none => rfl
      | some v => exact absurd ((reflects o name.lexeme v).mp found) never.not_latest
    rw [absent]
    cases found : o.cls.findMethod name.lexeme with
    | none => exact .missing never (lacks_of_findMethod known found) rfl
    | some method =>
      have binds : Binds held m (base.giveBoundMethod method (.object o)) method o _ :=
        binds_giveBoundMethod only kept base rfl method o
      exact .method never (nearest_of_findMethod known found) rfl binds

/-- Property reads see the latest write. In every run, the expression `e.f` whose object comes to
`o` gives the value that was last stored under `f` in `o`; if there was none, the method of the
nearest class, as a new function with the receiver `o`; and otherwise the run fails. What is stored
is what assignments to fields store, and nothing else changes the fields of an object. A class never
changes: whatever was reached before and has the identity of a class is that class. -/
theorem property_reads (history : History programs held s events) (depth : Nat)
    (program : List Stmt) (ds : Distances) (n : Nat) :
    let c := s.setting depth ds
    let m := s.point depth program ds n
    let past := s.eventsAt depth program ds n events
    (∀ id e name o last, m.control = .evaluate (.get id e name) →
      Machine.Evaluates c m e (.object o) last →
        ∃ k, let p := s.point depth program ds (n + k)
          p = last.above (.property name :: m.frames) ∧
            Reads (s.eventsAt depth program ds (n + k) events) held p o name
              { p with frames := m.frames } (s.point depth program ds (n + k + 1))) ∧
      (∀ id e value name o v first last, m.control = .evaluate (.set id e name value) →
        Machine.Evaluates c m e (.object o) first → Machine.Evaluates c first value v last →
          ∃ k, let p := s.point depth program ds (n + k)
            Machine.Sets c m p o name v ∧ s.point depth program ds (n + k + 1) =
              { p with
                control := .value v
                frames := m.frames
                store := p.store.setField o name.lexeme v }) ∧
      Tracked past ∧ Reflects past m.store ∧
      ∀ c k a b, .step c k ∈ past → k.Reaches [] (.value (.cls a)) →
        m.Reaches held (.value (.cls b)) → a.identity = b.identity → a = b := by
  have add : ∀ k, s.point depth program ds (n + k) =
      Machine.run (s.setting depth ds) k (s.point depth program ds n) :=
    fun k => Machine.run_add _ _ _ _
  have succ : ∀ k, s.point depth program ds (k + 1) =
      Machine.step (s.setting depth ds) (s.point depth program ds k) :=
    fun k => Machine.run_succ _ _ _
  refine ⟨?_, ?_, ?_, ?_, ?_⟩
  · intro id e name o last control evaluates
    obtain ⟨k, comes⟩ := Machine.reading_of_get control evaluates
    rw [← add] at comes
    refine ⟨k, comes, ?_⟩
    rw [succ]
    refine reads_of_property history depth program ds (n + k) ?_ ?_
    · rw [comes]
      exact evaluates.control
    · rw [comes, Machine.above, evaluates.frames]
      rfl
  · intro id e value name o v first last control begins further
    obtain ⟨k, sets⟩ := Machine.sets_of_set control begins further
    rw [← add] at sets
    exact ⟨k, sets, (succ _).trans sets.step⟩
  · exact (tracked_of_history history).eventsAt depth program ds n
  · exact reflects_point history (reflects_of_history history) depth program ds n
  · intro c k a b member one two same
    obtain ⟨i, _, made, lasting⟩ := lasting_of_history history
    obtain ⟨j, _, _, here, kept, later⟩ := lasting.eventsAt made depth program ds n
    obtain ⟨h, older, there⟩ := later c k member
    have first : a ∈ h.classes := made_of_reaches there (List.forall_mem_nil _) one
    have second : b ∈ j.classes := made_of_reaches here kept two
    exact here.store.class_unique (older.classes.subset first) second same

/-- One object under two names, with a field, an inherited method and neither. -/
def aliasProgram : List Stmt :=
  [.classDecl 2 (firstLine "A") none [.mk 1 (firstLine "m") [] []],
    .classDecl 4 (firstLine "B") (some ⟨3, firstLine "A"⟩) [],
    .var 7 (firstLine "b")
      (some (.call 6 (.read ⟨5, firstLine "B"⟩) ⟨.symbol .rightParen, ")", 1⟩ [])),
    .var 9 (firstLine "c") (some (.read ⟨8, firstLine "b"⟩)),
    .expression 14
      (.set 13 (.read ⟨10, firstLine "c"⟩) (firstLine "f") (.read ⟨12, firstLine "b"⟩)),
    .expression 17 (.get 16 (.read ⟨15, firstLine "b"⟩) (firstLine "f")),
    .expression 20 (.get 19 (.read ⟨18, firstLine "b"⟩) (firstLine "m")),
    .expression 23 (.get 22 (.read ⟨21, firstLine "b"⟩) (firstLine "g"))]

def aliasPoint (n : Nat) : Machine := (empty "main").point 9 aliasProgram [] n

def aliasObject : Object :=
  ⟨0, ⟨1, "B", some ⟨0, "A", none, [("m", ⟨.mk 1 (firstLine "m") [] [], 0, false⟩)]⟩, []⟩⟩

/-- The field is stored under one name of the object and read under the other, and of the other two
properties one is found in the superclass. -/
theorem property_reads_alias :
    let s := empty "main"
    s.Accepts
        "class A { m() {} } class B < A {} var b = B(); var c = b; c.f = b; b.f; b.m; b.g;"
        aliasProgram [] ∧
      (∃ k, Machine.Sets (s.setting 9 []) (aliasPoint 18) (aliasPoint (18 + k)) aliasObject
        (firstLine "f") (.object aliasObject)) ∧
      ∀ n name, (n, name) ∈ [(26, "f"), (32, "m"), (38, "g")] → ∃ k base,
        Reads (s.eventsAt 9 aliasProgram [] (n + k) []) [] (aliasPoint (n + k)) aliasObject
          (firstLine name) base (aliasPoint (n + k + 1)) := by
  intro s
  have read : s.read
      "class A { m() {} } class B < A {} var b = B(); var c = b; c.f = b; b.f; b.m; b.g;" =
        ({ s with nextId := 24 }, .ok aliasProgram) := by cbv
  have reads := fun n => property_reads (.empty "main") 9 aliasProgram [] n
  refine ⟨⟨congrArg Prod.snd read, by rfl⟩, ?_, fun n name member => ?_⟩
  · obtain ⟨k, sets, _⟩ := (reads 18).2.1 13 (.read ⟨10, firstLine "c"⟩)
      (.read ⟨12, firstLine "b"⟩) (firstLine "f") aliasObject (.object aliasObject) _ _ rfl
      ⟨⟨1, rfl⟩, rfl, rfl⟩ ⟨⟨1, rfl⟩, rfl, rfl⟩
    exact ⟨k, sets⟩
  · have begins : ∃ id e, (aliasPoint n).control = .evaluate (.get id e (firstLine name)) ∧
        ∃ last, Machine.Evaluates (s.setting 9 []) (aliasPoint n) e (.object aliasObject) last := by
      simp only [List.mem_cons, List.not_mem_nil, or_false, Prod.mk.injEq] at member
      rcases member with ⟨rfl, rfl⟩ | ⟨rfl, rfl⟩ | ⟨rfl, rfl⟩
      all_goals exact ⟨_, _, rfl, _, ⟨1, rfl⟩, rfl, rfl⟩
    obtain ⟨id, e, control, last, evaluates⟩ := begins
    obtain ⟨k, _, result⟩ := (reads n).1 id e (firstLine name) aliasObject last control evaluates
    exact ⟨k, _, result⟩

end Session

end LoxMachine
