import LoxMachine.Proofs.Machine.Evaluates

namespace LoxMachine

theorem Table.put_of_not_mem {α : Type} (t : Table α) {name : String} (absent : name ∉ t.names)
    (a : α) : t.put name a = t ++ [(name, a)] := by
  induction t with
  | nil => rfl
  | cons entry rest ih =>
    obtain ⟨other, b⟩ := entry
    have apart : name ∉ other :: names rest := absent
    have differ : (other == name) = false :=
      beq_eq_false_iff_ne.mpr (List.ne_of_not_mem_cons apart).symm
    rw [put, differ, if_neg Bool.false_ne_true, ih (List.not_mem_of_not_mem_cons apart)]
    rfl

namespace Machine

variable {c : Setting} {m base : Machine} {arguments : List Value}

theorem enclosing_bindParameters (s : Store) (e : ScopeId) (params : List Token)
    (arguments : List Value) (query : ScopeId) :
    (bindParameters s e params arguments).scopes.enclosing query = s.scopes.enclosing query := by
  induction params generalizing s arguments with
  | nil => rfl
  | cons param rest ih =>
    cases arguments with
    | nil => rfl
    | cons a others => exact (ih _ others).trans (s.scopes.enclosing_define e query _ a)

theorem bindings_bindParameters {s : Store} {e : ScopeId} {params : List Token}
    {arguments : List Value} (inside : e < s.scopes.scopes.size)
    (distinct : ((s.scopes.bindings e).names ++ params.map (·.lexeme)).Nodup) :
    (bindParameters s e params arguments).scopes.bindings e =
      s.scopes.bindings e ++ (params.map (·.lexeme)).zip arguments := by
  induction params generalizing s arguments with
  | nil => exact (List.append_nil _).symm
  | cons param rest ih =>
    cases arguments with
    | nil => exact (List.append_nil _).symm
    | cons a others =>
      have absent : param.lexeme ∉ (s.scopes.bindings e).names := fun member =>
        (List.nodup_append.mp distinct).2.2 _ member _ List.mem_cons_self rfl
      have bound : (s.define e param.lexeme a).scopes.bindings e =
          s.scopes.bindings e ++ [(param.lexeme, a)] := by
        rw [Store.define, Forest.bindings_define, if_pos ⟨rfl, inside⟩]
        exact Table.put_of_not_mem _ absent a
      have others_distinct : ((s.define e param.lexeme a).scopes.bindings e).names ++
          rest.map (·.lexeme) = (s.scopes.bindings e).names ++ (param :: rest).map (·.lexeme) := by
        rw [bound, Table.names, List.map_append, List.append_assoc]
        rfl
      have inner : e < (s.define e param.lexeme a).scopes.scopes.size :=
        Nat.lt_of_lt_of_eq inside (Forest.size_define _ _ _ _).symm
      rw [bindParameters, ih inner (others_distinct ▸ distinct), bound, List.append_assoc]
      rfl

/-- The body of the function is about to begin, and the current scope is a new one inside of the
scope of the function, which binds exactly the parameters, each to its argument. -/
structure Begins (base next : Machine) (f : Closure) (arguments : List Value) : Prop where
  control : next.control = .done
  frames : next.frames =
    .sequence f.decl.body :: .leaveCall base.scope f.initialized :: base.frames
  new : next.scope = base.store.scopes.scopes.size
  enclosing : next.store.scopes.enclosing next.scope = some f.scope
  count : arguments.length = f.decl.params.length
  bindings : next.store.scopes.bindings next.scope = (f.decl.params.map (·.lexeme)).zip arguments

theorem begins_of_enter {f : Closure} (room : base.depth < c.depthLimit)
    (count : arguments.length = f.decl.params.length)
    (distinct : (f.decl.params.map (·.lexeme)).Nodup) :
    Begins base (enter c base f arguments) f arguments := by
  let opened := (base.store.openScope f.scope).1
  have entered : enter c base f arguments =
      { base with
        control := .done
        frames := .sequence f.decl.body :: .leaveCall base.scope f.initialized :: base.frames
        scope := base.store.scopes.scopes.size
        depth := base.depth + 1
        store := bindParameters opened base.store.scopes.scopes.size f.decl.params arguments } :=
    if_neg (Nat.not_le_of_gt room)
  have empty : opened.scopes.bindings base.store.scopes.scopes.size = [] := by
    refine (base.store.scopes.bindings_grow _ _).trans ?_
    rw [Forest.bindings, Array.getElem?_eq_none (Nat.le_refl _)]
  have inside : base.store.scopes.scopes.size < opened.scopes.scopes.size :=
    Nat.lt_of_lt_of_eq (Nat.lt_succ_self _) (Forest.size_grow _ _).symm
  rw [entered]
  refine ⟨rfl, rfl, rfl, ?_, count, ?_⟩
  · rw [enclosing_bindParameters]
    exact (base.store.scopes.enclosing_grow _ _).trans (if_pos rfl)
  · have bound := @bindings_bindParameters opened _ f.decl.params arguments inside
    rw [empty] at bound
    exact bound distinct

theorem length_of_calls {target : Callable} (calls : m.Calls base target arguments) :
    arguments.length = target.arity := by
  induction calls with
  | first control frames right => exact right.symm
  | last control frames right => rw [right, List.length_reverse, List.length_cons]
  | @initializer base k arguments method called found ih =>
    -- the initializer that gives the class its arity is the one that the call finds
    have own : k.arity = method.arity := by rw [Class.arity, found]
    exact ih.trans own

theorem calls_of_supplies {v : Value} {callee : Expr} {paren : Token} {given : List Value}
    (supplies : m.Supplies base v callee paren given []) {target : Callable}
    (callable : v.callable? = some target) (right : given.reverse.length = target.arity) :
    m.Calls base target given.reverse := by
  cases value_of_callable callable
  cases supplies with
  | first control frames => exact .first control frames right.symm
  | next control frames =>
    rw [List.length_reverse, List.length_cons] at right
    exact .last control frames right.symm

theorem base_of_supplies {v : Value} {callee : Expr} {paren : Token} {given : List Value}
    {rest : List Expr} (supplies : m.Supplies base v callee paren given rest) :
    base = { m with frames := base.frames } := by
  cases supplies with
  | first | next => rfl

/-- A step calls, or it lets no host reply and goes no deeper. -/
theorem calls_or_plain (c : Setting) (m : Machine) :
    (∃ base target arguments, m.Calls base target arguments ∧
      step c m = invoke c base target arguments ∧ base.depth = m.depth ∧
      base.store = m.store) ∨
    ((step c m).depth ≤ m.depth ∧ (step c m).store.host = m.store.host) := by
  cases going : m.isOver with
  | true =>
    rw [(step_of_over c going).1]
    exact .inr ⟨Nat.le_refl _, rfl⟩
  | false =>
    rcases step_cases c going with
      ⟨id, callee, paren, es, control⟩ | ⟨base, v, callee, paren, given, rest, supplies⟩ |
        ⟨taken, kept, frames, _, plain⟩
    · have begun : step c m = m.evaluating callee (.callee callee paren es) := by
        simp only [step, control]
        rfl
      rw [begun]
      exact .inr ⟨Nat.le_refl _, rfl⟩
    · have shape := base_of_supplies supplies
      have begun := step_of_supplies (c := c) supplies
      cases rest with
      | cons e rest =>
        rw [begun, shape]
        exact .inr ⟨Nat.le_refl _, rfl⟩
      | nil =>
        rcases call_cases c base callee paren v given.reverse with
          ⟨_, failed⟩ | ⟨target, callable, right, called⟩
        · rw [begun, supply, failed, shape]
          exact .inr ⟨Nat.le_refl _, rfl⟩
        · refine .inl ⟨base, target, _, calls_of_supplies supplies callable right, ?_, ?_, ?_⟩
          · rw [begun, supply, called]
          · rw [shape]
          · rw [shape]
    · exact .inr ⟨plain.depth, plain.host⟩

/-- Only the call of a function goes deeper. -/
theorem calls_of_deeper (deeper : m.depth < (step c m).depth) :
    ∃ base f arguments, m.Calls base (.closure f) arguments ∧ base.depth < c.depthLimit ∧
      step c m = enter c base f arguments := by
  rcases calls_or_plain c m with ⟨base, target, arguments, calls, begun, depth, _⟩ | ⟨least, _⟩
  · rw [begun, ← depth] at deeper
    have room : ∀ (base : Machine) (f : Closure), base.depth < (enter c base f arguments).depth →
        base.depth < c.depthLimit := by
      intro base f deeper
      refine Nat.lt_of_not_le fun full => ?_
      rw [enter, if_pos full] at deeper
      exact Nat.lt_irrefl _ deeper
    cases target with
    | closure f => exact ⟨base, f, arguments, calls, room base f deeper, begun⟩
    | native f =>
      rw [invoke, (frames_callHost base f arguments).2] at deeper
      exact absurd deeper (Nat.lt_irrefl _)
    | cls k =>
      cases found : k.initializer with
      | none =>
        rw [invoke, instantiate, found] at deeper
        exact absurd deeper (Nat.lt_irrefl _)
      | some method =>
        have inside : invoke c base (.cls k) arguments =
            enter c (base.initializing k method).1 (base.initializing k method).2 arguments := by
          rw [invoke, instantiate, found]
          rfl
        rw [inside] at deeper begun
        exact ⟨_, _, arguments, .initializer calls found, room _ _ deeper, begun⟩
  · exact absurd deeper (Nat.not_lt_of_le least)

theorem calls_of_host (changed : (step c m).store.host ≠ m.store.host) :
    ∃ base f arguments, m.Calls base (.native f) arguments := by
  rcases calls_or_plain c m with ⟨base, target, arguments, calls, begun, _, store⟩ | ⟨_, same⟩
  · rw [begun, ← store] at changed
    have entered : ∀ (base : Machine) (f : Closure),
        (enter c base f arguments).store.host = base.store.host := by
      intro base f
      unfold enter
      split
      · rfl
      · exact host_bindParameters _ _ _ _
    cases target with
    | closure f => exact absurd (entered base f) changed
    | native f => exact ⟨base, f, arguments, calls⟩
    | cls k =>
      cases found : k.initializer with
      | none =>
        rw [invoke, instantiate, found] at changed
        exact absurd rfl changed
      | some method =>
        rw [invoke, instantiate, found] at changed
        exact absurd (entered _ _) changed
  · exact absurd same changed

end Machine

end LoxMachine
