import LoxMachine.Proofs.Machine.Recorded
import LoxMachine.Proofs.Machine.Preservation
import LoxMachine.Proofs.Scope.Inside
import LoxMachine.Proofs.Search.Forest

namespace LoxMachine

open Static

theorem Forest.outward_snoc {α : Type} {f : Forest α} {e target outer : ScopeId} {n : Nat}
    (found : f.outward n e = some target) (around : f.enclosing target = some outer) :
    f.outward (n + 1) e = some outer := by
  rw [Forest.outward_add, found, Option.bind_some, Forest.outward_succ around]
  rfl

def Past.shape (w : Past) : List Origin := w.ledger.map Opening.origin

theorem Past.opening_of_shape {w : Past} {e : ScopeId} {origin : Origin}
    (opened : w.shape[e]? = some origin) : ∃ o, w.ledger[e]? = some o ∧ o.origin = origin := by
  rw [Past.shape, List.getElem?_map] at opened
  exact Option.map_eq_some_iff.mp opened

theorem Past.shape_of_opening {w : Past} {e : ScopeId} {o : Opening}
    (opened : w.ledger[e]? = some o) : w.shape[e]? = some o.origin := by
  rw [Past.shape, List.getElem?_map, opened, Option.map_some]

theorem Past.shape_add (w : Past) (more : List Opening) :
    (w.add more).shape = w.shape ++ more.map Opening.origin := List.map_append

theorem call_of_origin {o : Opening} {decl : FunctionDecl} (same : o.origin = decl.origin) :
    ∃ f, o = .call f ∧ f.decl.id = decl.id := by
  obtain ⟨id, name, params, body⟩ := decl
  cases o with
  | call f =>
    obtain ⟨identity, ⟨own, other, parameters, inner⟩, scope, isInitializer⟩ := f
    exact ⟨_, rfl, (Origin.function.inj same).1⟩
  | _ => cases same

theorem receiver_of_origin {o : Opening} (same : o.origin = .receiver) :
    ∃ method a bound, o = .receiver method a bound := by
  cases o with
  | receiver method a bound => exact ⟨method, a, bound, rfl⟩
  | call f => obtain ⟨_, ⟨_, _, _, _⟩, _, _⟩ := f; cases same
  | _ => cases same

theorem heritage_of_origin {o : Opening} (same : o.origin = .heritage) :
    ∃ name methods base, o = .heritage name methods base := by
  cases o with
  | heritage name methods base => exact ⟨name, methods, base, rfl⟩
  | call f => obtain ⟨_, ⟨_, _, _, _⟩, _, _⟩ := f; cases same
  | _ => cases same

namespace Machine

/-- Around the current scope, and nearest of its kind, there is the scope of a call of a function
that was made when the method was bound to the receiver. -/
structure CallOf (m : Machine) (ledger : List Opening) (method : Method) (a : Value) (k : Nat)
    (f : Closure) : Prop where
  call : ∃ e, m.store.scopes.outward k m.scope = some e ∧ ledger[e]? = some (.call f)
  bound : ledger[f.scope]? = some (.receiver method a f)
  nearest : ∀ j < k, ∀ nearer g, m.store.scopes.outward j m.scope = some nearer →
    ledger[nearer]? = some (.call g) →
      ∀ other b bound, ledger[g.scope]? ≠ some (.receiver other b bound)

variable {G : Occurrence → Prop} {w : Past} {c : Setting} {m : Machine}

theorem expects_of_fits {shape : List Origin} (fits : m.Fits G shape) :
    ∃ demand, m.Expects G shape demand := by
  cases fits with
  | evaluate _ _ expects | execute _ _ _ expects | value _ _ expects | done _ _ _ expects
  | returning _ _ _ expects | failing _ _ expects => exact ⟨_, expects⟩

theorem ordinary_of_frames {shape : List Origin} (fits : m.Fits G shape) (id : NodeId)
    (name : Token) (rest : List Frame) (frames : m.frames = .assign id name :: rest) :
    name.Ordinary := by
  obtain ⟨_, _, _, _, _, _, _⟩ := m
  cases frames
  obtain ⟨demand, expects⟩ := expects_of_fits fits
  cases expects.frames with
  | expression _ waits _ => exact waits.1
  | statement waits _ => exact False.elim waits

theorem recorded_run (resolves : Resolves c.distances G) (n : Nat) (fits : m.Fits G w.shape)
    (recorded : m.Recorded w) :
    (run c n m).Fits G (w.add (openingsOf c n m)).shape ∧
      (run c n m).Recorded (w.add (openingsOf c n m)) := by
  induction n generalizing m w with
  | zero =>
    rw [openingsOf, Past.add_nil]
    exact ⟨fits, recorded⟩
  | succ n ih =>
    unfold run openingsOf
    split
    · rw [Past.add_nil]
      exact ⟨fits, recorded⟩
    · have next := fits_step resolves fits
      rw [← origin_openings, ← Past.shape_add] at next
      rw [← Past.add_add]
      exact ih next (recorded_step recorded (ordinary_of_frames fits))

/-- A place in a method that a run is at belongs to a call of that method, and the scopes further
outward are those of its receiver and of its class. -/
theorem callOf_of_inside {pending : Option String} {levels outer : List Level}
    {decl : FunctionDecl} {k : Nat} (recorded : m.Recorded w)
    (only : ∀ other, w.Declares other → other.id = decl.id → other = decl)
    (mirrors : Mirrors w.shape m.store.scopes pending m.scope levels)
    (inside : Inside decl.origin (receiverLevel :: outer) k levels) :
    ∃ f method a, m.CallOf w.ledger method a k f ∧ method.decl = decl ∧ method.Recorded w ∧
      m.store.scopes.get f.scope "this" = .ok a ∧
      m.store.scopes.outward (k + 1) m.scope = some f.scope ∧
      m.store.scopes.enclosing f.scope = some method.scope ∧
      m.store.scopes.outward (k + 2) m.scope = some method.scope ∧
      Mirrors w.shape m.store.scopes none method.scope outer := by
  obtain ⟨⟨e, around, found, opened, enclosing, outside⟩, free⟩ := mirrors_inside inside mirrors
  obtain ⟨o, called, same⟩ := Past.opening_of_shape opened
  obtain ⟨f, rfl, number⟩ := call_of_origin same
  obtain ⟨stands, declared, made⟩ := recorded.store.openings e _ called
  cases stands.symm.trans enclosing
  obtain ⟨mirrored, further, around_receiver, rest⟩ := outside
  obtain ⟨o, receiver, same⟩ := Past.opening_of_shape mirrored.opened
  obtain ⟨method, a, bound, rfl⟩ := receiver_of_origin same
  have own : bound = f := by
    rcases made with ⟨o, here, body⟩ | ⟨method', a', here⟩
    · cases here.symm.trans receiver
      exact body.elim
    · cases here.symm.trans receiver
      rfl
  subst own
  obtain ⟨scope, named, _, decl_same, method_recorded⟩ := recorded.store.openings _ _ receiver
  cases scope.symm.trans around_receiver
  have outward := Forest.outward_snoc found enclosing
  refine ⟨bound, method, a, ⟨⟨e, found, called⟩, receiver, ?_⟩, ?_, method_recorded, named, outward,
    scope, Forest.outward_snoc outward scope, rest⟩
  · intro j before nearer g reached call other b made_for receives
    obtain ⟨inner, _⟩ := recorded.store.openings nearer _ call
    exact (free (j + 1) before g.scope (Forest.outward_snoc reached inner)).1
      (Past.shape_of_opening receives)
  · exact decl_same.symm.trans (only bound.decl declared number)

/-- A run that is at a `this` or a `super` of a method is inside of it: the use that the text has
there is the only one with its number, so its levels are those that the scopes mirror. -/
theorem inside_of_evaluating {shape : List Origin} {context : Context} {levels : List Level}
    {body : List Stmt} {around inner : List Enclosure} {id use : NodeId} {name keyword : Token}
    {superclass : Option Variable} {methods : List FunctionDecl} {decl : FunctionDecl} {e : Expr}
    (unique : ∀ o other id, G o → G other → o.node? = some id → other.node? = some id → o = other)
    (fits : m.Fits G shape) (fit : StmtsFit G context levels body)
    (stands : LoxMachine.Stands body around (.classDecl id name superclass methods))
    (which : decl ∈ methods) (outside : innermostClass inner = none)
    (known : ∀ p, e.Fits G p → G (.use use keyword p.levels))
    (evaluates : Evaluates decl.body inner e) (evaluating : m.control = .evaluate e) :
    ∃ p outer k, e.Fits G p ∧ m.Stands G shape p ∧
      Inside decl.origin (receiverLevel :: classLevels outer superclass) k p.levels := by
  obtain ⟨p, outer, k, text_fits, inside⟩ := inside_of_evaluates fit stands which outside evaluates
  cases fits with
  | evaluate place control expects stands fits _ =>
    cases control.symm.trans evaluating
    have same := unique _ _ use (known p text_fits) (known place fits) rfl rfl
    rw [(Occurrence.use.inj same).2.2] at inside
    exact ⟨place, outer, k, fits, stands, inside⟩
  | execute _ _ control | value _ control | done _ _ control | returning _ _ control
  | failing _ control => cases control.symm.trans evaluating

theorem step_this {levels outer : List Level} {decl : FunctionDecl} {k : Nat} {id : NodeId}
    {keyword : Token} {f : Closure} {a : Value} (resolves : Resolves c.distances G)
    (control : m.control = .evaluate (.this id keyword)) (same : keyword.lexeme = "this")
    (known : G (.use id keyword levels))
    (inside : Inside decl.origin (receiverLevel :: outer) k levels)
    (outward : m.store.scopes.outward (k + 1) m.scope = some f.scope)
    (named : m.store.scopes.get f.scope "this" = .ok a) : step c m = m.give a := by
  have located : locate levels "this" = some (k + 1) := by
    rw [locate_inside inside (.inl rfl)]
    exact congrArg some (Nat.zero_add (k + 1))
  simp only [step, control, evaluate, lookUp, resolves id keyword levels known, same, located,
    Option.map_some, Forest.getAt_eq_get outward, named, giveBound]

/-- A method of the superclass is looked up in what the scope of the class names, and bound to the
receiver of the call. -/
theorem step_super {levels outer : List Level} {decl : FunctionDecl} {k : Nat} {id : NodeId}
    {keyword name : Token} {f : Closure} {method : Method} {a : Value} {base : Class}
    (resolves : Resolves c.distances G)
    (control : m.control = .evaluate (.super id keyword name)) (same : keyword.lexeme = "super")
    (known : G (.use id keyword levels))
    (inside : Inside decl.origin (receiverLevel :: heritageLevel :: outer) k levels)
    (outward : m.store.scopes.outward (k + 1) m.scope = some f.scope)
    (named : m.store.scopes.get f.scope "this" = .ok a)
    (further : m.store.scopes.outward (k + 2) m.scope = some method.scope)
    (kept : m.store.scopes.get method.scope "super" = .ok (.cls base)) :
    step c m = match base.findMethod name.lexeme with
      | some found => m.giveBoundMethod found a
      | none => m.complain name (.undefinedProperty name.lexeme) := by
  have located : locate levels "super" = some (k + 2) := by
    rw [locate_inside inside (.inr rfl)]
    exact congrArg some (Nat.add_comm 1 (k + 1))
  have inner : Int.ofNat (k + 2) - 1 = Int.ofNat (k + 1) := by
    simp only [Int.ofNat_eq_natCast]
    omega
  cases found : base.findMethod name.lexeme <;>
    simp only [step, control, evaluate, lookUpSuper, resolves id keyword levels known, same,
      located, Option.map_some, inner, Forest.getAt_eq_get outward, Forest.getAt_eq_get further,
      named, kept, found]

/-- A method of a class with a superclass was made when the scope around it was opened for the
superclass. -/
theorem heritage_of_method {method : Method} {outer : List Level} (recorded : m.Recorded w)
    (method_recorded : method.Recorded w)
    (mirrors : Mirrors w.shape m.store.scopes none method.scope (heritageLevel :: outer)) :
    ∃ name methods base, w.ledger[method.scope]? = some (.heritage name methods base) ∧
      (∃ entry, (entry, method) ∈ methodTable method.scope methods) ∧
      m.store.scopes.get method.scope "super" = .ok (.cls base) ∧
      ∃ id use, w.Written (.classDecl id name (some use) methods) := by
  obtain ⟨o, opened, same⟩ := Past.opening_of_shape mirrors.1.opened
  obtain ⟨name, methods, base, rfl⟩ := heritage_of_origin same
  obtain ⟨named, written⟩ := recorded.store.openings _ _ opened
  rcases method_recorded.2 with ⟨o, here, body⟩ | ⟨name', methods', base', here, member⟩
  · cases here.symm.trans opened
    exact body.elim
  · cases here.symm.trans opened
    exact ⟨name, methods, base, opened, member, named, written⟩

end Machine

end LoxMachine
