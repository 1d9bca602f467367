import LoxMachine.Proofs.Recode.Machine
import LoxMachine.Proofs.Machine.Operations

namespace LoxMachine.Machine

open Static

variable {ϕ : Recoding} {G : Occurrence → Prop} {shape : List Origin} {further : List Stmt}
  {before : Record} {c c' : Setting} {m other : Machine} {p : Site}

theorem recoded_give (parallel : m.Parallel ϕ G shape further before other) (a : Value) :
    (m.give a).Recoded ϕ G shape further before (other.give (a.recode ϕ)) :=
  .going ⟨⟨parallel.scope, parallel.depth, parallel.store, parallel.discreet, parallel.printed,
    parallel.classes⟩, parallel.frames⟩ (.value a)

theorem recoded_fail (parallel : m.Parallel ϕ G shape further before other) {f g : Failure}
    (alike : f.Recoded ϕ G g) : (m.fail f).Recoded ϕ G shape further before (other.fail g) :=
  .going ⟨⟨parallel.scope, parallel.depth, parallel.store, parallel.discreet, parallel.printed,
    parallel.classes⟩, parallel.frames⟩ (.failing alike)

theorem recoded_complain (parallel : m.Parallel ϕ G shape further before other) {id : NodeId}
    {t : Token} (known : G (.mark id t)) {complaint different : Complaint}
    (alike : complaint.Recoded ϕ different) :
    (m.complain t complaint).Recoded ϕ G shape further before
      (other.complain (ϕ.mark id t) different) :=
  recoded_fail parallel (.mark known alike)

theorem recoded_finish (parallel : m.Parallel ϕ G shape further before other) :
    m.finish.Recoded ϕ G shape further before other.finish :=
  .going ⟨⟨parallel.scope, parallel.depth, parallel.store, parallel.discreet, parallel.printed,
    parallel.classes⟩, parallel.frames⟩ .done

theorem recoded_evaluating (parallel : m.Parallel ϕ G shape further before other) (e : Expr)
    {frame waiting : Frame} (alike : frame.Recoded ϕ G shape m.scope waiting)
    (inside : frame.outside m.scope = m.scope) :
    (m.evaluating e frame).Recoded ϕ G shape further before
      (other.evaluating (e.recode ϕ) waiting) := by
  refine .going ⟨⟨parallel.scope, parallel.depth, parallel.store, parallel.discreet,
    parallel.printed, parallel.classes⟩, .cons alike ?_⟩ (.evaluate e)
  change FramesRecoded ϕ G shape further (frame.outside m.scope) m.frames other.frames
  rw [inside]
  exact parallel.frames

theorem recoded_still {n o : Machine} (recoded : n.Recoded ϕ G shape further before o) :
    n.Recoded ϕ G (shape ++ []) further before o := by
  rwa [List.append_nil]

inductive ResultRecoded (ϕ : Recoding) (G : Occurrence → Prop) :
    Except Failure Value → Except Failure Value → Prop
  | ok (a : Value) : ResultRecoded ϕ G (.ok a) (.ok (a.recode ϕ))
  | error {f g : Failure} (alike : f.Recoded ϕ G g) : ResultRecoded ϕ G (.error f) (.error g)

theorem recoded_giveResult (parallel : m.Parallel ϕ G shape further before other)
    {result outcome : Except Failure Value} (alike : ResultRecoded ϕ G result outcome) :
    (m.giveResult result).Recoded ϕ G shape further before (other.giveResult outcome) := by
  cases alike with
  | ok a => exact recoded_give parallel a
  | error alike => exact recoded_fail parallel alike

theorem recoded_numberResult (result : Except Number.RangeError Number) :
    ResultRecoded ϕ G (numberResult result) (numberResult result) := by
  cases result with
  | ok n => exact .ok (.number n)
  | error e =>
    cases e
    exact .error .overflow

theorem isSymbol_mark (id : NodeId) (t : Token) (s : Symbol) :
    (ϕ.mark id t).isSymbol s = t.isSymbol s := by
  rw [Token.isSymbol, Token.isSymbol, ϕ.mark_kind]

theorem isKeyword_mark (id : NodeId) (t : Token) (k : Keyword) :
    (ϕ.mark id t).isKeyword k = t.isKeyword k := by
  rw [Token.isKeyword, Token.isKeyword, ϕ.mark_kind]

theorem recoded_applyPrefix {id : NodeId} {operator : Token} (known : G (.mark id operator))
    (a : Value) :
    ResultRecoded ϕ G (applyPrefix operator a) (applyPrefix (ϕ.mark id operator) (a.recode ϕ)) := by
  unfold applyPrefix
  rw [isSymbol_mark, Value.isTruthy_recode]
  split
  · exact .ok (.bool _)
  · cases a with
    | number n => exact recoded_numberResult _
    | closure f =>
      have text := Value.text_recode ϕ (.closure f)
      exact .error (.mark known (text ▸ .same _))
    | cls c =>
      have text := Value.text_recode ϕ (.cls c)
      exact .error (.mark known (text ▸ .same _))
    | object o =>
      have text := Value.text_recode ϕ (.object o)
      exact .error (.mark known (text ▸ .same _))
    | nil | bool | string | native => exact .error (.mark known (.same _))

theorem recoded_applyNumbers {id : NodeId} {operator : Token} (known : G (.mark id operator))
    (left right : Expr) (a b : Number) :
    ResultRecoded ϕ G
      (applyNumbers (fun _ => (Expr.binary 0 left operator right).form) operator a b)
      (applyNumbers
        (fun _ => (Expr.binary 0 (left.recode ϕ) (ϕ.mark id operator) (right.recode ϕ)).form)
        (ϕ.mark id operator) a b) := by
  unfold applyNumbers
  rw [ϕ.mark_kind, ϕ.mark_lexeme]
  split
  case h_4 =>
    split
    · exact .error (.mark known (.division (.binary id left operator right)))
    · exact recoded_numberResult _
  case h_5 | h_6 | h_7 | h_8 => exact .ok (.bool _)
  case h_9 => exact .error (.mark known (.same _))
  all_goals exact recoded_numberResult _

theorem recoded_applyBinary {id : NodeId} {operator : Token} (known : G (.mark id operator))
    (left right : Expr) (a b : Value) :
    ResultRecoded ϕ G
      (applyBinary (fun _ => (Expr.binary 0 left operator right).form) operator a b)
      (applyBinary
        (fun _ => (Expr.binary 0 (left.recode ϕ) (ϕ.mark id operator) (right.recode ϕ)).form)
        (ϕ.mark id operator) (a.recode ϕ) (b.recode ϕ)) := by
  have texts := Value.text_recode ϕ
  have equal := Value.isEqual_recode ϕ a b
  unfold applyBinary
  rw [ϕ.mark_kind, ϕ.mark_lexeme, texts, texts, equal]
  cases operator.kind with
  | symbol s =>
    cases s <;> cases a <;> cases b <;>
      first
      | exact .ok (.bool _)
      | exact .ok (.string _)
      | exact recoded_applyNumbers known left right _ _
      | exact .error (.mark known (.same _))
  | _ =>
    cases a <;> cases b <;>
      first
      | exact recoded_applyNumbers known left right _ _
      | exact .error (.mark known (.same _))

theorem lookup_eq (resolves : Resolves c.distances G) (same : Resolves c'.distances G)
    {id : NodeId} {name : Token} {levels : List Level} (known : G (.use id name levels)) :
    c'.distances.lookup id = c.distances.lookup id :=
  (same id name levels known).trans (resolves id name levels known).symm

theorem get_globals_recode {s : Store} (store : s.Fits G shape) (name : String) :
    ((s.recode ϕ shape).scopes.bindings Store.globals).get? name =
      ((s.scopes.bindings Store.globals).get? name).map (·.recode ϕ) := by
  have top : originAt shape Store.globals = .global := originAt_eq store.global
  have apart : s.scopes.Apart ϕ shape Store.globals name :=
    store.apart fun _ inner => absurd rfl inner
  have found := Forest.get?_bindings_recode apart
  rwa [top, ϕ.bound_global] at found

theorem recoded_lookUp (respects : ϕ.Respects G) (resolves : Resolves c.distances G)
    (same : Resolves c'.distances G) {id : NodeId} {name : Token}
    (parallel : m.Parallel ϕ G shape further before other) (store : m.store.Fits G shape)
    (stands : m.Stands G shape p) (readable : Readable G p id name) :
    (lookUp c m id name).Recoded ϕ G shape further before
      (lookUp c' other id (ϕ.use id name)) := by
  unfold lookUp
  rw [lookup_eq resolves same readable.1, resolves id name p.levels readable.1, parallel.store,
    parallel.scope]
  cases located : locate p.levels name.lexeme with
  | none =>
    have lexeme := respects.missing id name p.levels readable.1 located
    simp only [Option.map_none, Forest.get, lexeme, get_globals_recode store]
    cases (m.store.scopes.bindings Store.globals).get? name.lexeme with
    | none => exact recoded_fail parallel (.use readable.1 _)
    | some a => exact recoded_give parallel a
  | some d =>
    have local_levels : p.levels ≠ [] := by
      intro empty
      rw [empty] at located
      cases located
    obtain ⟨target, _, level, outward, _, here, opened, named, bound⟩ := stands.located located
    have lexeme := respects.found id name p.levels d level readable.1 located here
    obtain ⟨a, found⟩ := Forest.contains_iff_get.mp (bound (readable.2 local_levels))
    have apart : m.store.scopes.Apart ϕ shape target name.lexeme :=
      store.apart fun origin _ again => Option.some.inj (opened.symm.trans again) ▸ named
    have recoded := Forest.get_recode apart found
    rw [originAt_eq opened] at recoded
    have outward' : (m.store.recode ϕ shape).scopes.outward d m.scope = some target :=
      (Forest.outward_recode ϕ shape m.store.scopes d m.scope).trans outward
    have recoded' : (m.store.recode ϕ shape).scopes.get target (ϕ.use id name).lexeme =
        .ok (a.recode ϕ) := lexeme ▸ recoded
    simp only [Option.map_some]
    rw [Forest.getAt_eq_get outward, found, Forest.getAt_eq_get outward', recoded']
    exact recoded_give parallel a

theorem recoded_assignTo (respects : ϕ.Respects G) (resolves : Resolves c.distances G)
    (same : Resolves c'.distances G) {id : NodeId} {name : Token}
    (parallel : m.Parallel ϕ G shape further before other) (store : m.store.Fits G shape)
    (stands : m.Stands G shape p) (known : G (.use id name p.levels)) (a : Value) :
    (assignTo c m id name a).Recoded ϕ G shape further before
      (assignTo c' other id (ϕ.use id name) (a.recode ϕ)) := by
  have assigned : ∀ e, m.store.scopes.Apart ϕ shape e name.lexeme →
      (ϕ.use id name).lexeme = ϕ.bound (originAt shape e) name.lexeme →
      Recoded ϕ G shape further before
        { m with control := .value a, store := m.store.define e name.lexeme a }
        { other with
          control := .value (a.recode ϕ)
          scope := m.scope
          store := (m.store.recode ϕ shape).define e (ϕ.use id name).lexeme (a.recode ϕ) } := by
    intro e apart lexeme
    refine .going ⟨⟨rfl, parallel.depth, ?_, parallel.discreet, parallel.printed,
      parallel.classes⟩, parallel.frames⟩ (.value a)
    rw [lexeme]
    exact Store.define_recode a apart
  unfold assignTo
  rw [lookup_eq resolves same known, resolves id name p.levels known, parallel.store,
    parallel.scope]
  cases located : locate p.levels name.lexeme with
  | none =>
    have lexeme := respects.missing id name p.levels known located
    have top : originAt shape Store.globals = .global := originAt_eq store.global
    have global := assigned Store.globals (store.apart fun _ inner => absurd rfl inner)
      (by rw [top, ϕ.bound_global, lexeme])
    rw [lexeme] at global
    simp only [Option.map_none, Forest.contains, Table.contains, lexeme, get_globals_recode store,
      Option.isSome_map]
    by_cases bound : ((m.store.scopes.bindings Store.globals).get? name.lexeme).isSome = true
    · simp only [bound, ↓reduceIte]
      exact global
    · simp only [bound, Bool.false_eq_true, ↓reduceIte]
      exact recoded_fail parallel (.use known _)
  | some d =>
    obtain ⟨target, _, level, outward, _, here, opened, named, _⟩ := stands.located located
    have lexeme := respects.found id name p.levels d level known located here
    have outward' : (m.store.recode ϕ shape).scopes.outward d m.scope = some target :=
      (Forest.outward_recode ϕ shape m.store.scopes d m.scope).trans outward
    simp only [Option.map_some]
    rw [Forest.ancestor_of_outward outward, Forest.ancestor_of_outward outward']
    refine assigned target (store.apart fun origin _ again => ?_) ?_
    · exact Option.some.inj (opened.symm.trans again) ▸ named
    · rw [originAt_eq opened, lexeme]

theorem openNamed_recode {s : Store} (sized : shape.length = s.scopes.scopes.size) (e : ScopeId)
    {origin : Origin} {name : String} (same : ϕ.bound origin name = name) (a : Value) :
    ((s.recode ϕ shape).openScope e).1.define s.scopes.scopes.size name (a.recode ϕ) =
      ((s.openScope e).1.define s.scopes.scopes.size name a).recode ϕ (shape ++ [origin]) := by
  have opened : originAt (shape ++ [origin]) s.scopes.scopes.size = origin :=
    originAt_eq (by rw [← sized, List.getElem?_concat_length])
  have apart : (s.openScope e).1.scopes.Apart ϕ (shape ++ [origin]) s.scopes.scopes.size name := by
    intro query bound
    rw [Store.openScope, Forest.contains_grow] at bound
    exact absurd (Forest.lt_size_of_contains bound) (Nat.lt_irrefl _)
  have defined := Store.define_recode a apart
  rw [opened, same] at defined
  rw [← defined, Store.openScope_recode ϕ shape s e origin sized]

theorem bind_recode {s : Store} (sized : shape.length = s.scopes.scopes.size) (method : Method)
    (receiver : Value) :
    (s.recode ϕ shape).bind (method.recode ϕ) (receiver.recode ϕ) =
      ((s.bind method receiver).1.recode ϕ (shape ++ [.receiver]),
        (s.bind method receiver).2.recode ϕ) := by
  have named := @openNamed_recode ϕ _ _ sized method.scope .receiver _
    (ϕ.bound_this .receiver) receiver
  have place : ((s.recode ϕ shape).openScope method.scope).2 = s.scopes.scopes.size :=
    Forest.size_recode ϕ shape s.scopes
  unfold Store.bind
  simp only [Method.recode, place]
  rw [named, Store.identify_recode]
  rfl

theorem recoded_giveBoundMethod (parallel : m.Parallel ϕ G shape further before other)
    (sized : shape.length = m.store.scopes.scopes.size) (method : Method) (receiver : Value) :
    (m.giveBoundMethod method receiver).Recoded ϕ G (shape ++ [.receiver]) further before
      (other.giveBoundMethod (method.recode ϕ) (receiver.recode ϕ)) := by
  unfold giveBoundMethod
  rw [parallel.store, bind_recode sized]
  exact .going ⟨⟨parallel.scope, parallel.depth, rfl, parallel.discreet, parallel.printed,
    parallel.classes⟩, parallel.frames.later _⟩ (.value (.closure _))

end LoxMachine.Machine
