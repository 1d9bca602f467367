import LoxMachine.Proofs.Machine.Operations

namespace LoxMachine.Machine

open Static

variable {G : Occurrence → Prop} {shape : List Origin} {c : Setting} {m : Machine} {p : Site}

theorem fits_still {n : Machine} (fits : n.Fits G shape) : n.Fits G (shape ++ []) := by
  rwa [List.append_nil]

theorem announced_of_none {context : Context} {levels : List Level} :
    Site.Announced ⟨context, levels, none⟩ := fun _ absent => nomatch absent

theorem announced_announce (context : Context) (levels : List Level) (name : Token) :
    Site.Announced ⟨context, announce levels name, some name.lexeme⟩ := by
  rintro _ ⟨⟩ level member
  cases levels with
  | nil => cases member
  | cons innermost outer =>
    cases member
    simp [Table.get?_put]

theorem fits_evaluate (resolves : Resolves c.distances G) {e : Expr}
    (expects : m.Expects G shape (.value p)) (stands : m.Stands G shape p) (fits : e.Fits G p)
    (awaited : p.Announced ∨ ReadsHeritage p e m.frames) :
    (evaluate c m e).Fits G (shape ++ evaluateOpens c m e) := by
  rcases awaited with announced | ⟨use, _, _, _, _, rfl, _, _⟩
  · cases e with
    | literal id value => exact fits_still (fits_give expects stands (fits_toValue _ value))
    | read use => exact fits_still (fits_lookUp resolves expects stands fits)
    | assign id name value =>
      exact fits_still (fits_evaluating expects stands announced fits.1 fits.2)
    | unary id operator right =>
      exact fits_still (fits_evaluating expects stands announced fits.2 True.intro)
    | binary id left operator right | logical id left operator right =>
      exact fits_still (fits_evaluating expects stands announced fits.2.1 fits.2.2)
    | grouping id inner =>
      exact fits_still (.evaluate p rfl ⟨expects.store, expects.frames⟩ stands fits (.inl announced))
    | call id callee paren arguments =>
      exact fits_still (fits_evaluating expects stands announced fits.2.1 fits.2.2)
    | get id object name =>
      exact fits_still (fits_evaluating expects stands announced fits.2 True.intro)
    | set id object name value =>
      exact fits_still (fits_evaluating expects stands announced fits.2.1 fits.2.2)
    | this id keyword => exact fits_still (fits_lookUp resolves expects stands fits.2.1)
    | super id keyword method =>
      obtain ⟨same, known, _, knows, object_free, class_free⟩ := fits
      exact fits_lookUpSuper resolves expects stands same known knows object_free class_free
  · exact fits_still (fits_lookUp resolves expects stands fits)

/-- Beginning with a statement. -/
theorem fits_execute {context : Context} {levels : List Level} {s : Stmt}
    (expects : m.Expects G shape (.completion context (addAll levels s.declared)))
    (stands : m.Stands G shape ⟨context, levels, none⟩) (fits : s.Fits G context levels) :
    (execute m s).Fits G (shape ++ executeOpens s) := by
  have evaluating : ∀ {e : Expr} {frame : Frame} {p : Site}, p.Announced →
      m.Stands G shape p → e.Fits G p →
      FramesFit (m.world G shape) (.value p) m.scope (frame :: m.frames) →
      (m.evaluating e frame).Fits G (shape ++ []) :=
    fun announced stands fits frames =>
      fits_still (.evaluate _ rfl ⟨expects.store, frames⟩ stands fits (.inl announced))
  cases s with
  | expression id e =>
    exact evaluating announced_of_none stands fits (.statement True.intro expects.frames)
  | print id e =>
    exact evaluating announced_of_none stands fits (.statement True.intro expects.frames)
  | var id name initializer =>
    obtain ⟨_, declarable, fits⟩ := fits
    cases initializer with
    | none =>
      have bindable := expects.store.bindable stands declarable.named declarable.ordinary .nil
      have grown := Store.extends_define G shape m.store m.scope name.lexeme .nil
      exact fits_still (.done context (add levels name) rfl
        ⟨expects.store.define bindable True.intro, expects.frames.later grown⟩
        (Static.Mirrors.define stands declarable.named bindable.inside Value.nil))
    | some e =>
      exact evaluating (announced_announce context levels name)
        (Static.Mirrors.announce stands declarable.named) fits (.define declarable expects.frames)
  | block id body =>
    obtain ⟨known, fits⟩ := fits
    have opened : Store.Fits G (shape ++ [.block id (namesOf body)]) _ :=
      expects.store.openScope m.scope known
    have grown : (m.world G shape).Extends _ :=
      Store.extends_openScope m.scope (.block id (namesOf body))
    exact .done context (blockLevels levels id body) rfl
      ⟨opened, .sequence fits
        (.leaveBlock (World.Mirrors.later grown stands) (expects.frames.later grown))⟩
      (Static.Mirrors.grow (.block id (namesOf body)) expects.store.sized stands)
  | branch id condition yes no =>
    cases no with
    | none =>
      obtain ⟨tested, chosen, silent⟩ := fits
      have frames := expects.frames
      simp only [Stmt.declared, silent, addAll, List.foldl_nil] at frames
      exact evaluating announced_of_none stands tested (.statement ⟨chosen, silent⟩ frames)
    | some no =>
      obtain ⟨tested, ⟨chosen, silent⟩, other, quiet⟩ := fits
      have frames := expects.frames
      simp only [Stmt.declared, silent, quiet, addAll, List.append_nil, List.foldl_nil] at frames
      exact evaluating announced_of_none stands tested
        (.statement ⟨⟨chosen, silent⟩, other, quiet⟩ frames)
  | loop id condition body =>
    obtain ⟨tested, body_fits, silent⟩ := fits
    have frames := expects.frames
    simp only [Stmt.declared, silent, addAll, List.foldl_nil] at frames
    exact evaluating announced_of_none stands tested
      (.statement ⟨tested, body_fits, silent⟩ frames)
  | function decl =>
    exact fits_still (fits_defineFunction expects stands fits.2.1 fits.2.2)
  | returns id keyword value =>
    obtain ⟨_, inside, fits⟩ := fits
    cases value with
    | none =>
      exact fits_still (.returning context levels rfl ⟨expects.store, expects.frames⟩ inside
        True.intro)
    | some e =>
      exact evaluating announced_of_none stands fits (.statement inside expects.frames)
  | classDecl id name superclass methods =>
    obtain ⟨_, declarable, heritage, fit⟩ := fits
    have before : m.Stands G shape ⟨context, add levels name, some name.lexeme⟩ :=
      (Static.Mirrors.announce stands declarable.named).stage (Names.stage declarable.named)
        (.inl rfl) .defined
    cases superclass with
    | none => exact fits_still (fits_defineClass expects before declarable fit)
    | some use =>
      exact fits_still (.evaluate ⟨context, add levels name, some name.lexeme⟩ rfl
        ⟨expects.store, .heritage declarable fit expects.frames⟩ before heritage
        (.inr ⟨use, use.name, name, methods, m.frames, rfl, rfl, rfl⟩))

theorem fits_leaveCall {scope : ScopeId} {initialized : Option ScopeId} {a : Value}
    (store : m.store.Fits G shape) (frames : FramesFit (m.world G shape) (.value p) scope m.frames)
    (mirrors : (m.world G shape).Mirrors p.pending scope p.levels)
    (object : ∀ own, initialized = some own → m.store.scopes.contains own "this" = true)
    (fits : a.Fits (m.world G shape)) : (m.leaveCall scope initialized a).Fits G shape := by
  cases initialized with
  | none => exact .value p rfl ⟨store, frames⟩ mirrors fits
  | some own =>
    obtain ⟨b, found⟩ := Forest.contains_iff_get.mp (object own rfl)
    simp only [leaveCall, found]
    exact .value p rfl ⟨store, frames⟩ mirrors (store.get found)

/-- Handing a value to a frame inside an expression. -/
theorem fits_resume_expression (resolves : Resolves c.distances G) {a : Value} {frame : Frame}
    (expects : m.Expects G shape (.value p)) (stands : m.Stands G shape p)
    (announced : p.Announced) (waits : frame.InExpr (m.world G shape) p)
    (value : a.Fits (m.world G shape)) :
    (resume c m a frame).Fits G (shape ++ resumeOpens c m a frame) := by
  cases frame with
  | assign id name =>
    exact fits_still (fits_assignTo resolves expects stands waits.1 waits.2 value)
  | operand operator =>
    exact fits_still (fits_giveResult expects stands (yields_applyPrefix _ operator a))
  | leftOperand left operator right =>
    exact fits_still (fits_evaluating expects stands announced waits True.intro)
  | rightOperand leftValue left operator right =>
    exact fits_still (fits_giveResult expects stands (yields_applyBinary _ _ operator leftValue a))
  | shortcut operator right =>
    simp only [resume]
    split
    · exact fits_still (fits_give expects stands value)
    · exact fits_still (.evaluate p rfl ⟨expects.store, expects.frames⟩ stands waits (.inl announced))
  | callee callee paren arguments =>
    exact fits_supply expects stands announced value (fun _ absent => nomatch absent) waits
  | argument calleeValue callee paren given arguments =>
    refine fits_supply expects stands announced waits.1 ?_ waits.2.2
    intro b member
    rcases List.mem_cons.mp member with rfl | earlier
    · exact value
    · exact waits.2.1 b earlier
  | property name => exact fits_readProperty expects stands value
  | target name right =>
    cases a with
    | object o => exact fits_still (fits_evaluating expects stands announced waits value)
    | _ => exact fits_still (fits_complain expects _ _)
  | field o name =>
    exact fits_still (.value p rfl ⟨expects.store.setField value, expects.frames⟩ stands value)
  | construct o => exact fits_still (fits_give expects stands (a := .object o) waits)
  | discard | print | define _ | choose _ _ | test _ _ | again _ _ | giveBack | heritage _ _ _
  | sequence _ | leaveBlock _ | leaveCall _ _ => exact absurd waits id

/-- Handing a value to a frame of a statement that declares nothing. -/
theorem fits_resume_statement {context : Context} {levels : List Level} {a : Value} {frame : Frame}
    (expects : m.Expects G shape (.completion context levels))
    (stands : m.Stands G shape ⟨context, levels, none⟩)
    (waits : frame.InStmt (m.world G shape) context levels) (value : a.Fits (m.world G shape)) :
    (resume c m a frame).Fits G (shape ++ resumeOpens c m a frame) := by
  have finished : m.finish.Fits G shape :=
    .done context levels rfl ⟨expects.store, expects.frames⟩ stands
  have chosen : ∀ {s : Stmt} {frames : List Frame}, s.Fits G context levels → s.declared = [] →
      FramesFit (m.world G shape) (.completion context levels) m.scope frames →
      Fits G shape { m with control := .execute s, frames } := by
    intro s frames fits silent framed
    refine .execute context levels rfl ⟨expects.store, ?_⟩ stands fits
    rw [silent]
    exact framed
  cases frame with
  | discard => exact fits_still finished
  | print => exact fits_still (.done context levels rfl ⟨expects.store, expects.frames⟩ stands)
  | choose yes no =>
    simp only [resume]
    cases no with
    | none =>
      split
      · exact fits_still (chosen waits.1 waits.2 expects.frames)
      · exact fits_still finished
    | some no =>
      split
      · exact fits_still (chosen waits.1.1 waits.1.2 expects.frames)
      · exact fits_still (chosen waits.2.1 waits.2.2 expects.frames)
  | test condition body =>
    simp only [resume]
    split
    · exact fits_still (chosen waits.2.1 waits.2.2
        (.again waits.1 waits.2.1 waits.2.2 expects.frames))
    · exact fits_still finished
  | giveBack =>
    exact fits_still (.returning context levels rfl ⟨expects.store, expects.frames⟩ waits value)
  | assign _ _ | operand _ | leftOperand _ _ _ | rightOperand _ _ _ _ | shortcut _ _
  | callee _ _ _ | argument _ _ _ _ _ | property _ | target _ _ | field _ _ | construct _
  | define _ | again _ _ | heritage _ _ _ | sequence _ | leaveBlock _ | leaveCall _ _ =>
    exact absurd waits id

theorem fits_resume (resolves : Resolves c.distances G) {a : Value} {frame : Frame}
    (store : m.store.Fits G shape)
    (frames : FramesFit (m.world G shape) (.value p) m.scope (frame :: m.frames))
    (stands : m.Stands G shape p) (value : a.Fits (m.world G shape)) :
    (resume c m a frame).Fits G (shape ++ resumeOpens c m a frame) := by
  cases frames with
  | expression announced waits others =>
    exact fits_resume_expression resolves ⟨store, others⟩ stands announced waits value
  | statement waits others => exact fits_resume_statement ⟨store, others⟩ stands waits value
  | @define context levels _ name _ declarable others =>
    have inside := Static.Mirrors.lt_size stands store.inside
    have bindable := store.bindable stands (Names.stage declarable.named) declarable.ordinary a
    have grown := Store.extends_define G shape m.store m.scope name.lexeme a
    exact fits_still (.done context (add levels name) rfl
      ⟨store.define bindable (value.later grown), others.later grown⟩
      (Static.Mirrors.add stands declarable.named inside a))
  | @heritage context levels _ superclass name methods _ declarable fit others =>
    cases a with
    | cls base => exact fits_defineDerived ⟨store, others⟩ stands declarable fit value
    | _ => exact fits_still (fits_complain ⟨store, others⟩ _ _)

theorem fits_proceed {context : Context} {levels : List Level} {frame : Frame}
    (store : m.store.Fits G shape) (control : m.control = .done)
    (frames : FramesFit (m.world G shape) (.completion context levels) m.scope (frame :: m.frames))
    (stands : m.Stands G shape ⟨context, levels, none⟩) : (proceed m frame).Fits G shape := by
  obtain ⟨_, _, _, _, _, _, _⟩ := m
  cases frames with
  | again tested body_fits silent others =>
    exact .evaluate ⟨context, levels, none⟩ rfl
      ⟨store, .statement ⟨tested, body_fits, silent⟩ others⟩ stands tested
      (.inl announced_of_none)
  | @sequence _ _ _ body _ fit others =>
    cases body with
    | nil => exact .done context levels control ⟨store, others⟩ stands
    | cons s rest =>
      rw [List.flatMap_cons, addAll, List.foldl_append] at others
      exact .execute context levels rfl ⟨store, .sequence fit.2 others⟩ stands fit.1
  | @leaveBlock _ _ outer _ around _ mirrors others =>
    exact .done context outer control ⟨store, others⟩ mirrors
  | leaveCall mirrors object others =>
    exact fits_leaveCall store others mirrors object True.intro

theorem fits_passReturn {context : Context} {levels : List Level} {a : Value} {frame : Frame}
    (store : m.store.Fits G shape) (control : m.control = .returning a)
    (frames : FramesFit (m.world G shape) (.completion context levels) m.scope (frame :: m.frames))
    (inside : context.function ≠ .topLevel) (value : a.Fits (m.world G shape)) :
    (passReturn m a frame).Fits G shape := by
  obtain ⟨_, _, _, _, _, _, _⟩ := m
  cases frames with
  | again tested body_fits silent others =>
    exact .returning context levels control ⟨store, others⟩ inside value
  | sequence fit others => exact .returning context _ control ⟨store, others⟩ inside value
  | @leaveBlock _ _ outer _ around _ mirrors others =>
    exact .returning context outer control ⟨store, others⟩ inside value
  | leaveCall mirrors object others => exact fits_leaveCall store others mirrors object value

theorem fits_passFailure {demand : Demand} {f : Failure} {frame : Frame}
    (store : m.store.Fits G shape) (control : m.control = .failing f)
    (frames : FramesFit (m.world G shape) demand m.scope (frame :: m.frames))
    (admissible : f.Admissible) : (passFailure m frame).Fits G shape := by
  obtain ⟨_, _, _, _, _, _, _⟩ := m
  cases frames with
  | @expression p _ _ _ announced waits others =>
    cases frame <;>
      first
      | exact .failing (.value p) control ⟨store, others⟩ admissible
      | exact absurd waits id
  | @statement context levels _ _ _ waits others =>
    cases frame <;> first | exact .failing _ control ⟨store, others⟩ admissible | exact absurd waits id
  | define declarable others => exact .failing _ control ⟨store, others⟩ admissible
  | heritage declarable fit others => exact .failing _ control ⟨store, others⟩ admissible
  | again tested body_fits silent others => exact .failing _ control ⟨store, others⟩ admissible
  | sequence fit others => exact .failing _ control ⟨store, others⟩ admissible
  | leaveBlock mirrors others => exact .failing _ control ⟨store, others⟩ admissible
  | leaveCall mirrors object others => exact .failing _ control ⟨store, others⟩ admissible

/-- The next state fits. -/
theorem fits_step (resolves : Resolves c.distances G) (fits : m.Fits G shape) :
    (step c m).Fits G (shape ++ opens c m) := by
  obtain ⟨control, frames, scope, depth, store, printed, classes⟩ := m
  cases fits with
  | evaluate p at_phrase expects stands fits awaited =>
    cases at_phrase
    exact fits_evaluate resolves expects stands fits awaited
  | execute context levels at_phrase expects stands fits =>
    cases at_phrase
    exact fits_execute expects stands fits
  | value p at_phrase expects stands fits =>
    cases at_phrase
    cases frames with
    | nil => nomatch expects.frames
    | cons frame frames => exact fits_resume resolves expects.store expects.frames stands fits
  | done context levels at_phrase expects stands =>
    cases at_phrase
    cases frames with
    | nil => exact fits_still (.done context levels rfl expects stands)
    | cons frame frames => exact fits_still (fits_proceed expects.store rfl expects.frames stands)
  | returning context levels at_phrase expects inside fits =>
    cases at_phrase
    cases frames with
    | nil =>
      cases expects.frames
      exact absurd rfl inside
    | cons frame frames =>
      exact fits_still (fits_passReturn expects.store rfl expects.frames inside fits)
  | failing demand at_phrase expects admissible =>
    cases at_phrase
    cases frames with
    | nil => exact fits_still (.failing demand rfl expects admissible)
    | cons frame frames =>
      exact fits_still (fits_passFailure expects.store rfl expects.frames admissible)

theorem fits_run (resolves : Resolves c.distances G) (n : Nat) (fits : m.Fits G shape) :
    ∃ added, (run c n m).Fits G (shape ++ added) := by
  induction n generalizing m shape with
  | zero => exact ⟨[], fits_still fits⟩
  | succ n ih =>
    unfold run
    split
    · exact ⟨[], fits_still fits⟩
    · obtain ⟨added, last⟩ := ih (fits_step resolves fits)
      exact ⟨opens c m ++ added, by rwa [← List.append_assoc]⟩

end LoxMachine.Machine
