import LoxMachine.Proofs.Recode.Operations
import LoxMachine.Proofs.Machine.Growth

namespace LoxMachine.Machine

open Static

variable {ϕ : Recoding} {G : Occurrence → Prop} {shape : List Origin} {further : List Stmt}
  {before : Record} {c c' : Setting} {m other : Machine} {p : Site}

theorem get_recode {s : Store} (store : s.Fits G shape) {e : ScopeId} {name : String} {a : Value}
    (spelled : ∀ origin, ϕ.bound origin name = name) (found : s.scopes.get e name = .ok a) :
    (s.recode ϕ shape).scopes.get e name = .ok (a.recode ϕ) := by
  have bound := Forest.contains_iff_get.mpr ⟨a, found⟩
  have apart : s.scopes.Apart ϕ shape e name :=
    store.apart fun origin inner opened => store.named e name origin inner bound opened
  have recoded := Forest.get_recode apart found
  rw [spelled] at recoded
  exact recoded

theorem getAt_recode {s : Store} (store : s.Fits G shape) {e : ScopeId} {d : Int} {name : String}
    {a : Value} (spelled : ∀ origin, ϕ.bound origin name = name)
    (found : s.scopes.getAt e d name = .ok a) :
    (s.recode ϕ shape).scopes.getAt e d name = .ok (a.recode ϕ) := by
  unfold Forest.getAt at found ⊢
  have reach : (s.recode ϕ shape).scopes.ancestor e d = s.scopes.ancestor e d :=
    Forest.ancestor_recode ϕ shape s.scopes e d
  rw [reach]
  cases reached : s.scopes.ancestor e d with
  | error _ =>
    rw [reached] at found
    cases found
  | ok target =>
    rw [reached] at found
    exact get_recode store spelled found

theorem recoded_lookUpSuper (resolves : Resolves c.distances G) (same : Resolves c'.distances G)
    {id : NodeId} {keyword method : Token} (parallel : m.Parallel ϕ G shape further before other)
    (store : m.store.Fits G shape) (stands : m.Stands G shape p)
    (fits : (Expr.super id keyword method).Fits G p) :
    (lookUpSuper c m id method).Recoded ϕ G (shape ++ superOpens c m id method) further before
      (lookUpSuper c' other id (ϕ.mark id method)) := by
  obtain ⟨spelled, known, marked, knows, object_free, class_free⟩ := fits
  obtain ⟨d, base, o, distance, base_found, found⟩ :=
    heritage_found resolves store stands spelled known knows object_free class_free
  have base_found' := getAt_recode store ϕ.bound_super base_found
  have found' := getAt_recode store ϕ.bound_this found
  have distance' := (lookup_eq resolves same known).trans distance
  unfold lookUpSuper superOpens
  rw [parallel.store, parallel.scope, ϕ.mark_lexeme]
  simp only [distance, distance', base_found, found, base_found', found', Value.recode,
    Class.findMethod_recode]
  cases base.findMethod method.lexeme with
  | some method_found =>
    exact recoded_giveBoundMethod parallel store.sized method_found (.object o)
  | none => exact recoded_still (recoded_complain parallel marked (.same _))

theorem bindParameters_recode {s : Store} {e : ScopeId} {origin : Origin} {params : List Token}
    (arguments : List Value) (opened : shape[e]? = some origin) (inside : e < s.scopes.scopes.size)
    (held : ∀ name, s.scopes.contains e name = true → name ∈ origin.names)
    (renamed : Token → Token) (each : ∀ param ∈ params, param.lexeme ∈ origin.names ∧
      (renamed param).lexeme = ϕ.bound origin param.lexeme) :
    bindParameters (s.recode ϕ shape) e (params.map renamed) (arguments.map (·.recode ϕ)) =
      (bindParameters s e params arguments).recode ϕ shape := by
  induction params generalizing s arguments with
  | nil => cases arguments <;> rfl
  | cons param rest ih =>
    cases arguments with
    | nil => rfl
    | cons a others =>
      obtain ⟨named, lexeme⟩ := each param List.mem_cons_self
      have apart : s.scopes.Apart ϕ shape e param.lexeme := by
        intro query bound spelled
        rw [originAt_eq opened] at spelled
        exact ϕ.injective origin query (held query bound) _ named spelled
      have defined := Store.define_recode a apart
      rw [originAt_eq opened, ← lexeme] at defined
      simp only [List.map_cons, bindParameters]
      rw [defined]
      refine ih others (by rw [Store.define, Forest.size_define]; exact inside) ?_
        fun other member => each other (List.mem_cons_of_mem _ member)
      intro query bound
      rcases (Forest.contains_define _ _ _ _ _ _ inside).mp bound with ⟨_, rfl⟩ | older
      · exact named
      · exact held query older

theorem host_bindParameters (s : Store) (e : ScopeId) (params : List Token)
    (arguments : List Value) : (bindParameters s e params arguments).host = s.host := by
  induction params generalizing s arguments with
  | nil => rfl
  | cons param rest ih =>
    cases arguments with
    | nil => rfl
    | cons a others => exact ih _ others

theorem recoded_enter (respects : ϕ.Respects G) (limits : c'.depthLimit = c.depthLimit)
    (parallel : m.Parallel ϕ G shape further before other) (store : m.store.Fits G shape)
    {f : Closure} (callee : f.Fits (m.world G shape)) (arguments : List Value) :
    (enter c m f arguments).Recoded ϕ G (shape ++ enterOpens c m f.decl) further before
      (enter c' other (f.recode ϕ) (arguments.map (·.recode ϕ))) := by
  unfold enter enterOpens
  rw [limits, parallel.depth, parallel.scope]
  by_cases full : c.depthLimit ≤ m.depth
  · simp only [full, ↓reduceIte]
    exact recoded_still (recoded_fail parallel .callDepth)
  · obtain ⟨identity, ⟨id, name, params, body⟩, scope, isInitializer⟩ := f
    obtain ⟨context, levels, ⟨_, params_fit, _⟩, _, _⟩ := callee
    have entered := Store.openScope_recode ϕ shape m.store scope (functionOrigin id params body)
      store.sized
    have place : (shape ++ [functionOrigin id params body])[m.store.scopes.scopes.size]? =
        some (functionOrigin id params body) := by
      rw [← store.sized, List.getElem?_concat_length]
    have inside : m.store.scopes.scopes.size < (m.store.openScope scope).1.scopes.scopes.size := by
      rw [Store.openScope, Forest.size_grow]
      exact Nat.lt_succ_self _
    have bound := @bindParameters_recode ϕ _ _ _ _ params arguments place inside
      (by
        intro query held
        rw [Store.openScope, Forest.contains_grow] at held
        exact absurd (Forest.lt_size_of_contains held) (Nat.lt_irrefl _))
      (ϕ.declare id) (by
        intro param member
        refine ⟨List.mem_append_left _ (List.mem_map_of_mem member), ?_⟩
        rw [respects.parameter id param _ (params_fit param member).2, functionLevels,
          originOf_addAll]
        rfl)
    simp only [full, ↓reduceIte, Closure.recode, FunctionDecl.recode, FunctionDecl.params,
      FunctionDecl.body]
    rw [parallel.store, entered]
    have grown := parallel.frames.later [functionOrigin id params body]
    refine .going ⟨⟨rfl, rfl, bound, ?_, parallel.printed, parallel.classes⟩,
      .cons (.sequence body) (.cons (.leaveCall m.scope _) grown)⟩ .done
    intro index entry here
    rw [host_bindParameters] at here
    exact parallel.discreet index entry here

/-- A class is called in both runs: an object is made, and its initializer begins. -/
theorem recoded_instantiate (respects : ϕ.Respects G) (limits : c'.depthLimit = c.depthLimit)
    (parallel : m.Parallel ϕ G shape further before other) (store : m.store.Fits G shape)
    {cls : Class} (callee : cls.Fits (m.world G shape)) (arguments : List Value) :
    (instantiate c m cls arguments).Recoded ϕ G
      (shape ++
        match cls.initializer with
        | none => []
        | some method => .receiver :: enterOpens c m method.decl) further before
      (instantiate c' other (cls.recode ϕ) (arguments.map (·.recode ϕ))) := by
  have made := store.instantiate cls
  unfold instantiate
  rw [parallel.store, Store.instantiate_recode, Class.initializer_recode]
  cases found : cls.initializer with
  | none =>
    exact recoded_still (.going ⟨⟨parallel.scope, parallel.depth, rfl, parallel.discreet,
      parallel.printed, parallel.classes⟩, parallel.frames⟩ (.value (.object _)))
  | some method =>
    obtain ⟨bound_store, grown, bound⟩ :=
      made.bind (o := (m.store.instantiate cls).2) (fits_findMethod callee found) callee
    have bound_recode := bind_recode (ϕ := ϕ) made.sized method
      (.object (m.store.instantiate cls).2)
    simp only [Value.recode] at bound_recode
    simp only [Option.map_some]
    rw [bound_recode]
    let later : Machine :=
      { m with
        store := ((m.store.instantiate cls).1.bind method (.object (m.store.instantiate cls).2)).1
        frames := .construct (m.store.instantiate cls).2 :: m.frames }
    let later' : Machine :=
      { other with
        store := later.store.recode ϕ (shape ++ [.receiver])
        frames := .construct ((m.store.instantiate cls).2.recode ϕ) :: other.frames }
    have inner : later.Parallel ϕ G (shape ++ [.receiver]) further before later' :=
      ⟨⟨parallel.scope, parallel.depth, rfl, parallel.discreet, parallel.printed, parallel.classes⟩,
        .cons (.construct _) (parallel.frames.later _)⟩
    have entered := recoded_enter (c := c) respects limits inner bound_store bound arguments
    rwa [List.append_assoc] at entered

theorem recoded_callHost (parallel : m.Parallel ϕ G shape further before other) (f : Native)
    (arguments : List Value) :
    (callHost m f arguments).Recoded ϕ G shape further before
      (callHost other f (arguments.map (·.recode ϕ))) := by
  have discreet := parallel.discreet.callHost_fst f arguments
  have known := parallel.discreet.callHost_snd f arguments
  unfold callHost
  rw [parallel.store, parallel.discreet.callHost f arguments]
  have inner : ({ m with store := (m.store.callHost f arguments).1 } : Machine).Parallel ϕ G shape
      further before
      { other with store := (m.store.callHost f arguments).1.recode ϕ shape } :=
    ⟨⟨parallel.scope, parallel.depth, rfl, discreet, parallel.printed, parallel.classes⟩,
      parallel.frames⟩
  dsimp only
  cases reply : (m.store.callHost f arguments).2 with
  | literal value =>
    have given := recoded_give inner value.toValue
    rwa [Value.recode_toValue] at given
  | argument index =>
    have given := recoded_give inner (arguments[index]?.getD .nil)
    have same : (arguments.map (·.recode ϕ))[index]?.getD .nil =
        (arguments[index]?.getD .nil).recode ϕ := by
      rw [List.getElem?_map]
      cases arguments[index]? <;> rfl
    rwa [← same] at given
  | recalled choose links =>
    have given := recoded_give inner ((m.store.callHost f arguments).1.recollect choose links)
    rwa [← Store.recollect_recode (reply ▸ known)] at given
  | failure text line file => exact recoded_fail inner (.host text line file)

theorem recoded_call (respects : ϕ.Respects G) (limits : c'.depthLimit = c.depthLimit)
    (parallel : m.Parallel ϕ G shape further before other) (store : m.store.Fits G shape)
    {id : NodeId} {paren : Token} (known : G (.mark id paren)) (callee : Expr)
    {calleeValue : Value} (value : calleeValue.Fits (m.world G shape)) (arguments : List Value) :
    (call c m callee paren calleeValue arguments).Recoded ϕ G
      (shape ++ callOpens c m calleeValue arguments) further before
      (call c' other (callee.recode ϕ) (ϕ.mark id paren) (calleeValue.recode ϕ)
        (arguments.map (·.recode ϕ))) := by
  unfold call callOpens
  rw [Value.callable_recode, Value.text_recode, List.length_map]
  cases target : calleeValue.callable? with
  | none => exact recoded_still (recoded_complain parallel known (.callee callee _))
  | some target_of =>
    simp only [Option.map_some, Callable.arity_recode]
    by_cases same : arguments.length = target_of.arity
    · simp only [same, ne_eq, not_true_eq_false, ↓reduceIte]
      cases calleeValue with
      | closure f =>
        cases target
        exact recoded_enter respects limits parallel store value arguments
      | native f =>
        cases target
        exact recoded_still (recoded_callHost parallel f arguments)
      | cls cls =>
        cases target
        exact recoded_instantiate respects limits parallel store value arguments
      | nil | bool | number | string | object => cases target
    · simp only [same, ne_eq, not_false_eq_true, ↓reduceIte]
      exact recoded_still (recoded_complain parallel known (.same _))

theorem recoded_supply (respects : ϕ.Respects G) (limits : c'.depthLimit = c.depthLimit)
    (parallel : m.Parallel ϕ G shape further before other) (store : m.store.Fits G shape)
    {id : NodeId} {paren : Token} (known : G (.mark id paren)) (callee : Expr)
    {calleeValue : Value} (value : calleeValue.Fits (m.world G shape)) (given : List Value)
    (arguments : List Expr) :
    (supply c m calleeValue callee paren given arguments).Recoded ϕ G
      (shape ++ supplyOpens c m calleeValue given arguments) further before
      (supply c' other (calleeValue.recode ϕ) (callee.recode ϕ) (ϕ.mark id paren)
        (given.map (·.recode ϕ)) (exprsRecode ϕ arguments)) := by
  cases arguments with
  | nil =>
    have called := recoded_call (c := c) respects limits parallel store known callee value
      given.reverse
    rwa [List.map_reverse] at called
  | cons e rest =>
    exact recoded_still (recoded_evaluating parallel e
      (.argument known calleeValue callee given rest) rfl)

theorem recoded_readProperty (parallel : m.Parallel ϕ G shape further before other)
    (sized : shape.length = m.store.scopes.scopes.size) {id : NodeId} {name : Token}
    (known : G (.mark id name)) (a : Value) :
    (readProperty m name a).Recoded ϕ G (shape ++ propertyOpens m name a) further before
      (readProperty other (ϕ.mark id name) (a.recode ϕ)) := by
  unfold readProperty propertyOpens
  cases a with
  | object o =>
    have method_found := Class.findMethod_recode ϕ name.lexeme o.cls
    simp only [Value.recode]
    rw [parallel.store, Store.fieldsOf_recode, ϕ.mark_lexeme, Table.get?_recode_id]
    cases found : (m.store.fieldsOf o).get? name.lexeme with
    | some b => exact recoded_still (recoded_give parallel b)
    | none =>
      simp only [Option.map_none, Object.recode, method_found]
      cases o.cls.findMethod name.lexeme with
      | some method => exact recoded_giveBoundMethod parallel sized method (.object o)
      | none => exact recoded_still (recoded_complain parallel known (.same _))
  | _ => exact recoded_still (recoded_complain parallel known (.same _))

theorem define_recode {s : Store} (store : s.Fits G shape) {e : ScopeId} {name renamed : Token}
    (alike : NamedAlike ϕ shape e name renamed)
    (named : ∀ origin, e ≠ Store.globals → shape[e]? = some origin → name.lexeme ∈ origin.names)
    (a : Value) :
    (s.recode ϕ shape).define e renamed.lexeme (a.recode ϕ) =
      (s.define e name.lexeme a).recode ϕ shape := by
  obtain ⟨origin, opened, lexeme⟩ := alike
  have defined := Store.define_recode (ϕ := ϕ) a (store.apart named)
  rwa [originAt_eq opened, ← lexeme] at defined

theorem origin_of_stands (store : m.store.Fits G shape) (stands : m.Stands G shape p) :
    shape[m.scope]? = some (originOf p.levels) := by
  unfold Stands World.Mirrors at stands
  cases levels : p.levels with
  | nil =>
    rw [levels] at stands
    have top : m.scope = Store.globals := stands
    rw [top]
    exact store.global
  | cons level outer =>
    rw [levels] at stands
    exact stands.1.opened

theorem recoded_defineFunction (respects : ϕ.Respects G) {context : Context} {levels : List Level}
    {decl : FunctionDecl} (parallel : m.Parallel ϕ G shape further before other)
    (store : m.store.Fits G shape) (stands : m.Stands G shape ⟨context, levels, none⟩)
    (known : G (.callable decl.name levels)) (declarable : Declarable levels decl.name) :
    (m.defineFunction decl).Recoded ϕ G shape further before
      (other.defineFunction (decl.recode ϕ)) := by
  have bindable := store.identify.bindable stands declarable.named declarable.ordinary .nil
  have alike : NamedAlike ϕ shape m.scope decl.name (decl.recode ϕ).name := by
    refine ⟨originOf levels, origin_of_stands store stands, ?_⟩
    rw [respects.callable decl.name levels known, FunctionDecl.name_recode]
  have defined := define_recode store.identify alike bindable.named
    (.closure ⟨m.store.identify.2, decl, m.scope, false⟩)
  refine .going ⟨⟨parallel.scope, parallel.depth, ?_, parallel.discreet, parallel.printed,
    parallel.classes⟩, parallel.frames⟩ .done
  unfold defineFunction
  rw [parallel.store, parallel.scope, Store.identify_recode]
  exact defined

theorem methodTable_recode (scope : ScopeId) (methods : List FunctionDecl) :
    methodTable scope (methodsRecode ϕ methods) =
      (methodTable scope methods).recode id (·.recode ϕ) := by
  have general : ∀ (ds : List FunctionDecl) (table : Table Method),
      (ds.map (·.recode ϕ)).foldl (fun table decl =>
        table.put decl.name.lexeme ⟨decl, scope, decl.name.lexeme == "init"⟩)
          (table.recode id (·.recode ϕ)) =
        (ds.foldl (fun table decl =>
          table.put decl.name.lexeme ⟨decl, scope, decl.name.lexeme == "init"⟩) table).recode id
          (·.recode ϕ) := by
    intro ds
    induction ds with
    | nil => exact fun table => rfl
    | cons d rest ih =>
      intro table
      have put := Table.put_recode_id (f := Method.recode ϕ) table d.name.lexeme
        ⟨d, scope, d.name.lexeme == "init"⟩
      simp only [List.map_cons, List.foldl_cons, FunctionDecl.name_recode]
      rw [← ih, ← put]
      rfl
  rw [methodsRecode_eq_map]
  exact general methods []

theorem class_recode (identity : Identity) (name : String) (superclass : Option Class)
    (methods : Table Method) :
    Class.recode ϕ ⟨identity, name, superclass, methods⟩ =
      ⟨identity, name, superclass.map (·.recode ϕ), methods.recode id (·.recode ϕ)⟩ := by
  cases superclass <;> rfl

theorem length_methodTable_recode (scope : ScopeId) (methods : List FunctionDecl) :
    (methodTable scope (methodsRecode ϕ methods)).length = (methodTable scope methods).length := by
  rw [methodTable_recode, Table.recode, List.length_map]

theorem recoded_defineClass {context : Context} {levels : List Level} {name renamed : Token}
    {methods : List FunctionDecl} (parallel : m.Parallel ϕ G shape further before other)
    (store : m.store.Fits G shape)
    (stands : m.Stands G shape ⟨context, add levels name, some name.lexeme⟩)
    (declarable : Declarable levels name) (alike : NamedAlike ϕ shape m.scope name renamed)
    (same : renamed.lexeme = name.lexeme) :
    (m.defineClass name none methods).Recoded ϕ G shape further before
      (other.defineClass renamed none (methodsRecode ϕ methods)) := by
  have names : Names (add levels name) name.lexeme := Names.stage (Names.stage declarable.named)
  have bindable := store.bindable stands names declarable.ordinary .nil
  have first := define_recode store alike bindable.named .nil
  have named := (store.define bindable True.intro).identify
  have second := define_recode named alike bindable.named
    (.cls ⟨m.store.nextIdentity, name.lexeme, none, methodTable m.scope methods⟩)
  simp only [Value.recode, class_recode, Option.map_none] at first second
  refine .going ⟨⟨parallel.scope, parallel.depth, ?_, parallel.discreet, parallel.printed, ?_⟩,
    parallel.frames⟩ .done
  · unfold defineClass
    rw [parallel.store, parallel.scope]
    simp only [first, Store.identify_recode, methodTable_recode]
    rw [same] at second ⊢
    exact second
  · unfold defineClass
    rw [parallel.scope, same]
    simp only [length_methodTable_recode, parallel.classes, List.cons_append]

/-- A class with a superclass is made and bound in both runs. -/
theorem recoded_defineDerived {context : Context} {levels : List Level} {name renamed : Token}
    {methods : List FunctionDecl} {base : Class}
    (parallel : m.Parallel ϕ G shape further before other) (store : m.store.Fits G shape)
    (stands : m.Stands G shape ⟨context, add levels name, some name.lexeme⟩)
    (declarable : Declarable levels name) (alike : NamedAlike ϕ shape m.scope name renamed)
    (same : renamed.lexeme = name.lexeme) (base_fits : base.Fits (m.world G shape)) :
    (m.defineClass name (some base) methods).Recoded ϕ G (shape ++ [.heritage]) further before
      (other.defineClass renamed (some (base.recode ϕ)) (methodsRecode ϕ methods)) := by
  have names : Names (add levels name) name.lexeme := Names.stage (Names.stage declarable.named)
  have bindable := store.bindable stands names declarable.ordinary .nil
  have first := define_recode store alike bindable.named .nil
  have named := store.define bindable True.intro
  have inner := Static.Mirrors.settle stands bindable.inside Value.nil
  have opened := @openNamed_recode ϕ _ _ named.sized m.scope .heritage _
    (ϕ.bound_super .heritage) (.cls base)
  have around : (((m.store.define m.scope name.lexeme .nil).recode ϕ shape).openScope m.scope).2 =
      (m.store.define m.scope name.lexeme .nil).scopes.scopes.size :=
    Forest.size_recode ϕ shape _
  obtain ⟨outside, grown, still⟩ := named.openHeritage inner
    (base_fits.later (Store.extends_define G shape m.store m.scope name.lexeme .nil))
  have last := outside.identify.bindable
    (World.Mirrors.later grown inner) names declarable.ordinary .nil
  have second := define_recode outside.identify (alike.later [.heritage]) last.named
    (.cls ⟨m.store.nextIdentity, name.lexeme, some base,
      methodTable (m.store.define m.scope name.lexeme .nil).scopes.scopes.size methods⟩)
  simp only [Value.recode, class_recode, Option.map_some] at first second opened
  refine .going ⟨⟨parallel.scope, parallel.depth, ?_, parallel.discreet, parallel.printed, ?_⟩,
    parallel.frames.later _⟩ .done
  · unfold defineClass
    rw [parallel.store, parallel.scope]
    simp only [first, around, opened, Store.identify_recode, methodTable_recode]
    rw [same] at second ⊢
    exact second
  · unfold defineClass
    simp only [parallel.scope, parallel.store, first, around]
    rw [same, parallel.classes]
    simp only [length_methodTable_recode, List.cons_append]
    rfl

end LoxMachine.Machine
