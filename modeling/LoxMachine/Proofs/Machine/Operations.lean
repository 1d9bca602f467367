import LoxMachine.Proofs.Machine.Opens
import LoxMachine.Proofs.Machine.Fits
import LoxMachine.Proofs.Scope.Resolves

namespace LoxMachine.Machine

open Static

variable {G : Occurrence → Prop} {shape : List Origin} {c : Setting} {m : Machine} {p : Site}

theorem fits_give {a : Value} (expects : m.Expects G shape (.value p)) (stands : m.Stands G shape p)
    (fits : a.Fits (m.world G shape)) : (m.give a).Fits G shape :=
  .value p rfl ⟨expects.store, expects.frames⟩ stands fits

theorem fits_fail {demand : Demand} {f : Failure} (expects : m.Expects G shape demand)
    (admissible : f.Admissible) : (m.fail f).Fits G shape :=
  .failing demand rfl ⟨expects.store, expects.frames⟩ admissible

theorem fits_complain {demand : Demand} (expects : m.Expects G shape demand) (t : Token)
    (complaint : Complaint) : (m.complain t complaint).Fits G shape :=
  fits_fail expects True.intro

theorem fits_evaluating {e : Expr} {frame : Frame} (expects : m.Expects G shape (.value p))
    (stands : m.Stands G shape p) (announced : p.Announced) (fits : e.Fits G p)
    (waits : frame.InExpr (m.world G shape) p) : (m.evaluating e frame).Fits G shape :=
  .evaluate p rfl ⟨expects.store, .expression announced waits expects.frames⟩ stands fits
    (.inl announced)

def Yields (w : World) : Except Failure Value → Prop
  | .ok a => a.Fits w
  | .error f => f.Admissible

theorem yields_numberResult (w : World) (result : Except Number.RangeError Number) :
    Yields w (numberResult result) := by
  cases result with
  | ok n => exact True.intro
  | error e =>
    cases e
    exact True.intro

theorem yields_applyPrefix (w : World) (operator : Token) (a : Value) :
    Yields w (applyPrefix operator a) := by
  unfold applyPrefix
  split
  · exact True.intro
  · split
    · exact yields_numberResult w _
    · exact True.intro

theorem yields_applyNumbers (w : World) (form : Unit → String) (operator : Token) (a b : Number) :
    Yields w (applyNumbers form operator a b) := by
  unfold applyNumbers
  split
  case h_4 =>
    split
    · exact True.intro
    · exact yields_numberResult w _
  all_goals first | exact True.intro | exact yields_numberResult w _

theorem yields_applyBinary (w : World) (form : Unit → String) (operator : Token) (a b : Value) :
    Yields w (applyBinary form operator a b) := by
  unfold applyBinary
  split
  case h_4 => exact yields_applyNumbers w form operator _ _
  all_goals exact True.intro

theorem fits_giveResult {result : Except Failure Value} (expects : m.Expects G shape (.value p))
    (stands : m.Stands G shape p) (yields : Yields (m.world G shape) result) :
    (m.giveResult result).Fits G shape := by
  cases result with
  | ok a => exact fits_give expects stands yields
  | error f => exact fits_fail expects yields

theorem fits_lookUp (resolves : Resolves c.distances G) {id : NodeId} {name : Token}
    (expects : m.Expects G shape (.value p)) (stands : m.Stands G shape p)
    (readable : Readable G p id name) : (lookUp c m id name).Fits G shape := by
  unfold lookUp
  rw [resolves id name p.levels readable.1]
  cases located : locate p.levels name.lexeme with
  | none =>
    simp only [Option.map_none]
    split
    · rename_i a found
      exact fits_give expects stands (expects.store.get found)
    · exact fits_complain expects _ _
  | some d =>
    have local_levels : p.levels ≠ [] := by
      intro empty
      rw [empty] at located
      cases located
    obtain ⟨target, _, _, outward, _, _, _, _, bound⟩ := stands.located located
    obtain ⟨a, found⟩ := Forest.contains_iff_get.mp (bound (readable.2 local_levels))
    simp only [Option.map_some]
    rw [Forest.getAt_eq_get (d := d) outward, found]
    exact fits_give expects stands (expects.store.get found)

theorem fits_assignTo (resolves : Resolves c.distances G) {id : NodeId} {name : Token} {a : Value}
    (expects : m.Expects G shape (.value p)) (stands : m.Stands G shape p)
    (ordinary : name.Ordinary) (known : G (.use id name p.levels))
    (fits : a.Fits (m.world G shape)) : (assignTo c m id name a).Fits G shape := by
  have assigned : ∀ e, m.store.Bindable shape e name.lexeme a →
      Fits G shape { m with control := .value a, store := m.store.define e name.lexeme a } := by
    intro e bindable
    have grown := Store.extends_define G shape m.store e name.lexeme a
    exact .value p rfl ⟨expects.store.define bindable (fits.later grown),
      expects.frames.later grown⟩ (stands.later grown) (fits.later grown)
  unfold assignTo
  rw [resolves id name p.levels known]
  cases located : locate p.levels name.lexeme with
  | none =>
    simp only [Option.map_none]
    split
    · rename_i bound
      exact assigned _ ⟨Forest.lt_size_of_contains bound, fun _ inner => absurd rfl inner,
        fun inner => absurd rfl inner, fun inner => absurd rfl inner⟩
    · exact fits_complain expects _ _
  | some d =>
    obtain ⟨target, _, level, outward, enclosing, _, opened, named, _⟩ := stands.located located
    simp only [Option.map_some]
    rw [Forest.ancestor_of_outward (d := d) outward]
    refine assigned target ⟨Forest.lt_size_of_enclosing enclosing, fun origin _ here => ?_,
      fun _ same => absurd same ordinary.1, fun _ same => absurd same ordinary.2⟩
    exact Option.some.inj (opened.symm.trans here) ▸ named

theorem fits_giveBoundMethod {method : Method} {o : Object}
    (expects : m.Expects G shape (.value p)) (stands : m.Stands G shape p)
    (method_fits : method.Fits (m.world G shape)) (object_fits : o.cls.Fits (m.world G shape)) :
    (m.giveBoundMethod method (.object o)).Fits G (shape ++ [.receiver]) := by
  obtain ⟨store, grown, bound⟩ := expects.store.bind method_fits object_fits
  exact .value p rfl ⟨store, expects.frames.later grown⟩ (stands.later grown) bound

theorem heritage_found (resolves : Resolves c.distances G) {id : NodeId} {keyword : Token}
    (store : m.store.Fits G shape) (stands : m.Stands G shape p) (same : keyword.lexeme = "super")
    (known : G (.use id keyword p.levels)) (knows : KnowsHeritage p.levels)
    (object_free : p.pending ≠ some "this") (class_free : p.pending ≠ some "super") :
    ∃ d base o, c.distances.lookup id = some d ∧
      m.store.scopes.getAt m.scope d "super" = .ok (.cls base) ∧
      m.store.scopes.getAt m.scope (d - 1) "this" = .ok (.object o) := by
  obtain ⟨d, located, object⟩ := knows
  obtain ⟨level, here, named⟩ := locate_eq_some object
  obtain ⟨base_scope, _, _, base_outward, base_enclosing, _, _, _, base_bound⟩ :=
    stands.located located
  obtain ⟨base, base_found⟩ := Forest.contains_iff_get.mp (base_bound class_free)
  obtain ⟨cls, rfl⟩ := store.classes base_scope base (store.ne_globals base_enclosing) base_found
  obtain ⟨scope, _, outward, enclosing, mirrored⟩ := stands.outward here
  have free : (if d = 0 then p.pending else none) ≠ some "this" := by
    split
    · exact object_free
    · exact fun absent => nomatch absent
  obtain ⟨receiver, found⟩ := Forest.contains_iff_get.mp (mirrored.bound "this" named free)
  obtain ⟨o, rfl⟩ := store.objects scope receiver (store.ne_globals enclosing) found
  have inner : Int.ofNat (d + 1) - 1 = Int.ofNat d := by
    simp only [Int.ofNat_eq_natCast, Int.natCast_add, Int.natCast_one, Int.add_sub_cancel]
  refine ⟨Int.ofNat (d + 1), cls, o, ?_, ?_, ?_⟩
  · rw [resolves id keyword p.levels known, same, located, Option.map_some]
  · rw [Forest.getAt_eq_get base_outward]
    exact base_found
  · rw [inner, Forest.getAt_eq_get outward]
    exact found

theorem fits_lookUpSuper (resolves : Resolves c.distances G) {id : NodeId} {keyword method : Token}
    (expects : m.Expects G shape (.value p)) (stands : m.Stands G shape p)
    (same : keyword.lexeme = "super") (known : G (.use id keyword p.levels))
    (knows : KnowsHeritage p.levels) (object_free : p.pending ≠ some "this")
    (class_free : p.pending ≠ some "super") :
    (lookUpSuper c m id method).Fits G (shape ++ superOpens c m id method) := by
  obtain ⟨d, base, o, distance, base_found, found⟩ :=
    heritage_found resolves expects.store stands same known knows object_free class_free
  unfold lookUpSuper superOpens
  simp only [distance, base_found, found]
  cases method_found : base.findMethod method.lexeme with
  | some found_method =>
    exact fits_giveBoundMethod expects stands
      (fits_findMethod (expects.store.getAt base_found) method_found) (expects.store.getAt found)
  | none =>
    rw [List.append_nil]
    exact fits_complain expects _ _

theorem fits_bindParameters {s : Store} {e : ScopeId} {levels : List Level} {params : List Token}
    {arguments : List Value} (store : s.Fits G shape)
    (mirrors : Static.Mirrors shape s.scopes none e levels)
    (same : arguments.length = params.length)
    (each : ∀ param ∈ params, param.Ordinary ∧ Names levels param.lexeme)
    (fit : ∀ a ∈ arguments, a.Fits (s.world G shape)) :
    (bindParameters s e params arguments).Fits G shape ∧
      (s.world G shape).Extends ((bindParameters s e params arguments).world G shape) ∧
      Static.Mirrors shape (bindParameters s e params arguments).scopes none e
        (addAll levels params) := by
  induction params generalizing s levels arguments with
  | nil => exact ⟨store, World.Extends.refl _, mirrors⟩
  | cons param rest ih =>
    cases arguments with
    | nil => cases same
    | cons a others =>
      obtain ⟨ordinary, names⟩ := each param List.mem_cons_self
      have bindable := store.bindable mirrors names ordinary a
      have grown := Store.extends_define G shape s e param.lexeme a
      have bound := store.define bindable ((fit a List.mem_cons_self).later grown)
      have inner := mirrors.define names bindable.inside a
      obtain ⟨result, further, last⟩ := ih bound inner (Nat.succ.inj same)
        (fun other member =>
          ⟨(each other (List.mem_cons_of_mem _ member)).1,
            (each other (List.mem_cons_of_mem _ member)).2.stage.stage⟩)
        (fun b member => (fit b (List.mem_cons_of_mem _ member)).later grown)
      exact ⟨result, grown.trans further, last⟩

theorem fits_enter {f : Closure} {arguments : List Value} (expects : m.Expects G shape (.value p))
    (stands : m.Stands G shape p) (callee : f.Fits (m.world G shape))
    (fit : ∀ a ∈ arguments, a.Fits (m.world G shape)) (same : arguments.length = f.arity) :
    (enter c m f arguments).Fits G (shape ++ enterOpens c m f.decl) := by
  unfold enter enterOpens
  split
  · rw [List.append_nil]
    exact fits_fail expects True.intro
  · obtain ⟨identity, ⟨id, name, params, body⟩, scope, isInitializer⟩ := f
    obtain ⟨context, levels, ⟨⟨_, known, _⟩, params_fit, body_fit⟩, mirrors, object⟩ := callee
    have opened : Store.Fits G (shape ++ [functionOrigin id params body]) _ :=
      expects.store.openScope scope known
    have entered : (m.world G shape).Extends _ :=
      Store.extends_openScope scope (functionOrigin id params body)
    have inner := Static.Mirrors.grow (functionOrigin id params body) expects.store.sized mirrors
    obtain ⟨store, bound, stands_inner⟩ := fits_bindParameters opened inner same
      (fun param member => ⟨(params_fit param member).1, by
        rintro _ ⟨⟩
        exact List.mem_append_left _ (List.mem_map_of_mem member)⟩)
      (fun a member => (fit a member).later entered)
    have grown := entered.trans bound
    refine .done context (functionLevels levels id params body) rfl
      ⟨store, .sequence body_fit (.leaveCall (stands.later grown) ?_ (expects.frames.later grown))⟩
      stands_inner
    intro own initialized
    dsimp only at initialized
    split at initialized
    · rename_i initializer
      cases initialized
      exact grown.forest.contains _ _ (object initializer)
    · cases initialized

theorem fits_instantiate {cls : Class} {arguments : List Value}
    (expects : m.Expects G shape (.value p)) (stands : m.Stands G shape p)
    (announced : p.Announced) (callee : cls.Fits (m.world G shape))
    (fit : ∀ a ∈ arguments, a.Fits (m.world G shape)) (same : arguments.length = cls.arity) :
    (instantiate c m cls arguments).Fits G (shape ++
      match cls.initializer with
      | none => []
      | some method => .receiver :: enterOpens c m method.decl) := by
  have store := expects.store.instantiate cls
  unfold instantiate
  unfold Class.arity at same
  cases found : cls.initializer with
  | none =>
    rw [List.append_nil]
    exact .value p rfl ⟨store, expects.frames⟩ stands callee
  | some method =>
    simp only [found] at same
    let made := m.store.instantiate cls
    obtain ⟨store, grown, bound⟩ := store.bind (o := made.2) (fits_findMethod callee found) callee
    have frames : FramesFit _ (.value p) m.scope (.construct made.2 :: m.frames) :=
      .expression announced (Class.Fits.later grown callee) (expects.frames.later grown)
    let later : Machine :=
      { m with
        store := (made.1.bind method (.object made.2)).1
        frames := .construct made.2 :: m.frames }
    have entered := fits_enter (c := c) (m := later) ⟨store, frames⟩ (stands.later grown) bound
      (fun a member => (fit a member).later grown) same
    rwa [List.append_assoc] at entered

/-- A function of the host gives a value or fails. The value has a property that literals and the
arguments have, and whatever the host can recollect. -/
theorem callHost_replies {P : Value → Prop} (f : Native) {arguments : List Value}
    (literal : ∀ l : Literal, P l.toValue) (each : ∀ a ∈ arguments, P a)
    (kept : ∀ choose links, P ((m.store.callHost f arguments).1.recollect choose links)) :
    (∃ a, P a ∧ m.callHost f arguments =
        give { m with store := (m.store.callHost f arguments).1 } a) ∨
      ∃ text line file, m.callHost f arguments =
        fail { m with store := (m.store.callHost f arguments).1 } (.host text line file) := by
  unfold callHost
  dsimp only
  split
  · exact .inl ⟨_, literal _, rfl⟩
  · rename_i index _
    refine .inl ⟨_, ?_, rfl⟩
    cases here : arguments[index]? with
    | none => exact literal .nil
    | some a => exact each a (List.mem_of_getElem? here)
  · exact .inl ⟨_, kept _ _, rfl⟩
  · exact .inr ⟨_, _, _, rfl⟩

theorem fits_callHost {f : Native} {arguments : List Value}
    (expects : m.Expects G shape (.value p)) (stands : m.Stands G shape p)
    (fit : ∀ a ∈ arguments, a.Fits (m.world G shape)) :
    (callHost m f arguments).Fits G shape := by
  have store := expects.store.callHost f fit
  have same : (m.store.callHost f arguments).1.scopes = m.store.scopes :=
    Store.scopes_callHost f arguments
  have worlds : (m.store.callHost f arguments).1.world G shape = m.world G shape := by
    rw [Store.world, same]
  have frames := expects.frames
  have mirrors : (m.world G shape).Mirrors p.pending m.scope p.levels := stands
  rw [← worlds] at frames mirrors fit
  rcases callHost_replies (m := m) f (fits_toValue _) fit store.recollect with
    ⟨a, value, replied⟩ | ⟨text, line, file, replied⟩ <;> rw [replied]
  · exact fits_give ⟨store, frames⟩ mirrors value
  · exact fits_fail ⟨store, frames⟩ True.intro

/-- A value is called with as many arguments as it takes, or a complaint says why not. -/
theorem fits_call {callee : Expr} {paren : Token} {calleeValue : Value} {arguments : List Value}
    (expects : m.Expects G shape (.value p)) (stands : m.Stands G shape p)
    (announced : p.Announced) (value : calleeValue.Fits (m.world G shape))
    (fit : ∀ a ∈ arguments, a.Fits (m.world G shape)) :
    (call c m callee paren calleeValue arguments).Fits G
      (shape ++ callOpens c m calleeValue arguments) := by
  unfold call callOpens
  cases calleeValue with
  | closure f =>
    dsimp only [Value.callable?, Callable.arity]
    by_cases same : arguments.length = f.arity
    · simp only [same, ne_eq, not_true_eq_false, ↓reduceIte]
      exact fits_enter expects stands value fit same
    · simp only [same, ne_eq, not_false_eq_true, ↓reduceIte, List.append_nil]
      exact fits_complain expects _ _
  | native f =>
    dsimp only [Value.callable?, Callable.arity]
    by_cases same : arguments.length = f.arity
    · simp only [same, ne_eq, not_true_eq_false, ↓reduceIte]
      rw [List.append_nil]
      exact fits_callHost expects stands fit
    · simp only [same, ne_eq, not_false_eq_true, ↓reduceIte, List.append_nil]
      exact fits_complain expects _ _
  | cls cls =>
    dsimp only [Value.callable?, Callable.arity]
    by_cases same : arguments.length = cls.arity
    · simp only [same, ne_eq, not_true_eq_false, ↓reduceIte]
      exact fits_instantiate expects stands announced value fit same
    · simp only [same, ne_eq, not_false_eq_true, ↓reduceIte, List.append_nil]
      exact fits_complain expects _ _
  | nil | bool _ | number _ | string _ | object _ =>
    dsimp only [Value.callable?]
    rw [List.append_nil]
    exact fits_complain expects _ _

theorem fits_supply {callee : Expr} {paren : Token} {calleeValue : Value} {given : List Value}
    {arguments : List Expr} (expects : m.Expects G shape (.value p)) (stands : m.Stands G shape p)
    (announced : p.Announced) (value : calleeValue.Fits (m.world G shape))
    (fit : ∀ a ∈ given, a.Fits (m.world G shape)) (rest : ExprsFit G p arguments) :
    (supply c m calleeValue callee paren given arguments).Fits G
      (shape ++ supplyOpens c m calleeValue given arguments) := by
  cases arguments with
  | nil => exact fits_call expects stands announced value fun a member => fit a (List.mem_reverse.mp member)
  | cons e others =>
    simp only [supplyOpens, List.append_nil]
    exact fits_evaluating expects stands announced rest.1 ⟨value, fit, rest.2⟩

theorem fits_readProperty {name : Token} {a : Value} (expects : m.Expects G shape (.value p))
    (stands : m.Stands G shape p) (value : a.Fits (m.world G shape)) :
    (readProperty m name a).Fits G (shape ++ propertyOpens m name a) := by
  unfold readProperty propertyOpens
  cases a with
  | object o =>
    cases found : (m.store.fieldsOf o).get? name.lexeme with
    | some b =>
      simp only [found, List.append_nil]
      exact fits_give expects stands (expects.store.field found)
    | none =>
      cases known : o.cls.findMethod name.lexeme with
      | some method =>
        simp only [found, known]
        exact fits_giveBoundMethod expects stands (fits_findMethod value known) value
      | none =>
        simp only [found, known, List.append_nil]
        exact fits_complain expects _ _
  | _ =>
    rw [List.append_nil]
    exact fits_complain expects _ _

theorem fits_defineFunction {context : Context} {levels : List Level} {decl : FunctionDecl}
    (expects : m.Expects G shape (.completion context (add levels decl.name)))
    (stands : m.Stands G shape ⟨context, levels, none⟩) (declarable : Declarable levels decl.name)
    (fits : decl.Fits G ⟨.function, context.enclosingClass⟩ (add levels decl.name)) :
    (m.defineFunction decl).Fits G shape := by
  have identified := expects.store.identify
  have bindable := identified.bindable stands declarable.named declarable.ordinary
    (.closure ⟨m.store.identify.2, decl, m.scope, false⟩)
  have grown := Store.extends_define G shape m.store.identify.1 m.scope decl.name.lexeme
    (.closure ⟨m.store.identify.2, decl, m.scope, false⟩)
  have inner := Static.Mirrors.define stands declarable.named bindable.inside
    (Value.closure ⟨m.store.identify.2, decl, m.scope, false⟩)
  refine .done context (add levels decl.name) rfl
    ⟨identified.define bindable ?_, expects.frames.later grown⟩ inner
  exact ⟨_, _, fits, inner, fun absent => nomatch absent⟩

/-- The methods in the table of a class are declared in it and stand in its scope. -/
theorem mem_methodTable {scope : ScopeId} {methods : List FunctionDecl} {entry : String × Method}
    (member : entry ∈ methodTable scope methods) :
    entry.2.decl ∈ methods ∧ entry.2.scope = scope := by
  have general : ∀ (ds : List FunctionDecl) (table : Table Method),
      (∀ m ∈ table, m.2.decl ∈ methods ∧ m.2.scope = scope) → (∀ d ∈ ds, d ∈ methods) →
      ∀ m ∈ ds.foldl (fun table decl =>
        table.put decl.name.lexeme ⟨decl, scope, decl.name.lexeme == "init"⟩) table,
      m.2.decl ∈ methods ∧ m.2.scope = scope := by
    intro ds
    induction ds with
    | nil => exact fun table known _ => known
    | cons d rest ih =>
      intro table known part
      apply ih
      · intro m here
        rcases Table.mem_put here with rfl | older
        · exact ⟨part d List.mem_cons_self, rfl⟩
        · exact known m older
      · exact fun other member => part other (List.mem_cons_of_mem _ member)
  exact general methods [] (fun _ absent => nomatch absent) (fun _ => id) entry member

theorem fits_of_mem_methods {enclosingClass : ClassContext} {levels : List Level}
    {methods : List FunctionDecl} (fit : MethodsFit G enclosingClass levels methods)
    {decl : FunctionDecl} (member : decl ∈ methods) :
    decl.Fits G ⟨methodContext decl.name, enclosingClass⟩ (receiverLevel :: levels) := by
  induction methods with
  | nil => cases member
  | cons m rest ih =>
    rcases List.mem_cons.mp member with rfl | later
    · exact fit.1
    · exact ih fit.2 later

theorem fits_bindClass {s : Store} {e around : ScopeId} {levels outer : List Level} {name : Token}
    {enclosingClass : ClassContext} {methods : List FunctionDecl} (identity : Identity)
    (superclass : Option Class) (store : s.Fits G shape)
    (mirrors : Static.Mirrors shape s.scopes none e (add levels name))
    (declarable : Declarable levels name) (outside : Static.Mirrors shape s.scopes none around outer)
    (fit : MethodsFit G enclosingClass outer methods)
    (base_fits : ∀ base, superclass = some base → base.Fits (s.world G shape)) :
    let cls : Value := .cls ⟨identity, name.lexeme, superclass, methodTable around methods⟩
    (s.define e name.lexeme cls).Fits G shape ∧
      (s.world G shape).Extends ((s.define e name.lexeme cls).world G shape) := by
  intro cls
  have names : Names (add levels name) name.lexeme := Names.stage (Names.stage declarable.named)
  have bindable := store.bindable mirrors names declarable.ordinary cls
  have grown := Store.extends_define G shape s e name.lexeme cls
  refine ⟨store.define bindable ?_, grown⟩
  refine Value.Fits.later grown (a := cls) (Class.fits_iff.mpr ⟨fun entry found => ?_, base_fits⟩)
  obtain ⟨member, same⟩ := mem_methodTable found
  refine ⟨_, outer, fits_of_mem_methods fit member, ?_⟩
  rw [same]
  exact outside

theorem fits_defineClass {context : Context} {levels : List Level} {name : Token}
    {methods : List FunctionDecl}
    (expects : m.Expects G shape (.completion context (add levels name)))
    (stands : m.Stands G shape ⟨context, add levels name, some name.lexeme⟩)
    (declarable : Declarable levels name) (fit : MethodsFit G .plain (add levels name) methods) :
    (m.defineClass name none methods).Fits G shape := by
  have names : Names (add levels name) name.lexeme := Names.stage (Names.stage declarable.named)
  have bindable := expects.store.bindable stands names declarable.ordinary .nil
  have first := Store.extends_define G shape m.store m.scope name.lexeme .nil
  have store := (expects.store.define bindable True.intro).identify
  have inner := Static.Mirrors.settle stands bindable.inside Value.nil
  obtain ⟨result, second⟩ := fits_bindClass m.store.nextIdentity none store inner declarable
    inner fit (fun _ absent => nomatch absent)
  have grown := first.trans second
  exact .done context (add levels name) rfl ⟨result, expects.frames.later grown⟩
    (World.Mirrors.later second inner)

theorem fits_defineDerived {context : Context} {levels : List Level} {name : Token} {base : Class}
    {methods : List FunctionDecl}
    (expects : m.Expects G shape (.completion context (add levels name)))
    (stands : m.Stands G shape ⟨context, add levels name, some name.lexeme⟩)
    (declarable : Declarable levels name)
    (fit : MethodsFit G .derived (heritageLevel :: add levels name) methods)
    (base_fits : base.Fits (m.world G shape)) :
    (m.defineClass name (some base) methods).Fits G (shape ++ [.heritage]) := by
  have names : Names (add levels name) name.lexeme := Names.stage (Names.stage declarable.named)
  have bindable := expects.store.bindable stands names declarable.ordinary .nil
  have first := Store.extends_define G shape m.store m.scope name.lexeme .nil
  have named := expects.store.define bindable True.intro
  have inner := Static.Mirrors.settle stands bindable.inside Value.nil
  obtain ⟨opened, second, outside⟩ := named.openHeritage inner (base_fits.later first)
  obtain ⟨result, third⟩ := fits_bindClass m.store.nextIdentity (some base) opened.identify
    (World.Mirrors.later second inner) declarable outside fit
    (fun _ same => Option.some.inj same ▸ (base_fits.later first).later second)
  have grown := (first.trans second).trans third
  exact .done context (add levels name) rfl ⟨result, expects.frames.later grown⟩
    (World.Mirrors.later third (World.Mirrors.later second inner))

end LoxMachine.Machine
