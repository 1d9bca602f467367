import LoxMachine.Proofs.Recode.Calls
import LoxMachine.Proofs.Machine.Preservation

namespace LoxMachine.Machine

open Static

variable {ϕ : Recoding} {G : Occurrence → Prop} {shape : List Origin} {further : List Stmt}
  {before : Record} {c c' : Setting} {m other : Machine} {p : Site}

theorem recoded_evaluate (respects : ϕ.Respects G) (resolves : Resolves c.distances G)
    (same : Resolves c'.distances G) (parallel : m.Parallel ϕ G shape further before other)
    (store : m.store.Fits G shape) (stands : m.Stands G shape p) {e : Expr} (fits : e.Fits G p) :
    (evaluate c m e).Recoded ϕ G (shape ++ evaluateOpens c m e) further before
      (evaluate c' other (e.recode ϕ)) := by
  cases e with
  | literal id value =>
    have given := recoded_give parallel value.toValue
    rw [Value.recode_toValue] at given
    exact recoded_still given
  | read use =>
    exact recoded_still (recoded_lookUp respects resolves same parallel store stands fits)
  | assign id name value =>
    exact recoded_still (recoded_evaluating parallel value (.assign id name) rfl)
  | unary id operator right =>
    exact recoded_still (recoded_evaluating parallel right (.operand fits.1) rfl)
  | binary id left operator right =>
    exact recoded_still (recoded_evaluating parallel left (.leftOperand fits.1 left right) rfl)
  | logical id left operator right =>
    exact recoded_still (recoded_evaluating parallel left (.shortcut id operator right) rfl)
  | grouping id inner =>
    exact recoded_still (.going ⟨⟨parallel.scope, parallel.depth, parallel.store, parallel.discreet,
      parallel.printed, parallel.classes⟩, parallel.frames⟩ (.evaluate inner))
  | call id callee paren arguments =>
    exact recoded_still (recoded_evaluating parallel callee (.callee fits.1 callee arguments) rfl)
  | get id object name =>
    exact recoded_still (recoded_evaluating parallel object (.property fits.1) rfl)
  | set id object name value =>
    exact recoded_still (recoded_evaluating parallel object (.target fits.1 value) rfl)
  | this id keyword =>
    exact recoded_still (recoded_lookUp respects resolves same parallel store stands fits.2.1)
  | super id keyword method =>
    exact recoded_lookUpSuper resolves same parallel store stands fits

theorem alike_of_declared (respects : ϕ.Respects G) {context : Context} {levels : List Level}
    {id : NodeId} {name : Token} (store : m.store.Fits G shape)
    (stands : m.Stands G shape ⟨context, levels, none⟩) (known : G (.variable id name levels)) :
    NamedAlike ϕ shape m.scope name (ϕ.declare id name) :=
  ⟨originOf levels, origin_of_stands store stands, respects.declared id name levels known⟩

theorem alike_of_class (respects : ϕ.Respects G) {context : Context} {levels : List Level}
    {name : Token} (id : NodeId) (store : m.store.Fits G shape)
    (stands : m.Stands G shape ⟨context, levels, none⟩) (known : G (.callable name levels)) :
    NamedAlike ϕ shape m.scope name (ϕ.mark id name) := by
  refine ⟨originOf levels, origin_of_stands store stands, ?_⟩
  rw [respects.callable name levels known, ϕ.mark_lexeme]

theorem recoded_execute (respects : ϕ.Respects G) {context : Context} {levels : List Level}
    (parallel : m.Parallel ϕ G shape further before other) (store : m.store.Fits G shape)
    (stands : m.Stands G shape ⟨context, levels, none⟩) {s : Stmt}
    (fits : s.Fits G context levels) :
    (execute m s).Recoded ϕ G (shape ++ executeOpens s) further before
      (execute other (s.recode ϕ)) := by
  cases s with
  | expression id e => exact recoded_still (recoded_evaluating parallel e .discard rfl)
  | print id e => exact recoded_still (recoded_evaluating parallel e .print rfl)
  | var id name initializer =>
    obtain ⟨known, declarable, _⟩ := fits
    have alike := alike_of_declared respects store stands known
    cases initializer with
    | none =>
      have bindable := store.bindable stands declarable.named declarable.ordinary .nil
      have defined := define_recode store alike bindable.named .nil
      refine recoded_still (.going ⟨⟨parallel.scope, parallel.depth, ?_, parallel.discreet,
        parallel.printed, parallel.classes⟩, parallel.frames⟩ .done)
      change other.store.define other.scope (ϕ.declare id name).lexeme .nil = _
      rw [parallel.store, parallel.scope]
      exact defined
    | some e => exact recoded_still (recoded_evaluating parallel e (.define alike) rfl)
  | block id body =>
    have opened := Store.openScope_recode ϕ shape m.store m.scope (.block id (namesOf body))
      store.sized
    have frames := parallel.frames.later [.block id (namesOf body)]
    unfold execute
    simp only [Stmt.recode]
    rw [parallel.store, parallel.scope, opened]
    exact .going ⟨⟨rfl, parallel.depth, rfl, parallel.discreet, parallel.printed,
      parallel.classes⟩, .cons (.sequence body) (.cons (.leaveBlock m.scope) frames)⟩ .done
  | branch id condition yes no =>
    cases no with
    | none => exact recoded_still (recoded_evaluating parallel condition (.choose yes none) rfl)
    | some no =>
      exact recoded_still (recoded_evaluating parallel condition (.choose yes (some no)) rfl)
  | loop id condition body =>
    exact recoded_still (recoded_evaluating parallel condition (.test condition body) rfl)
  | function decl =>
    exact recoded_still (recoded_defineFunction respects parallel store stands fits.1 fits.2.1)
  | returns id keyword value =>
    cases value with
    | none =>
      exact recoded_still (.going ⟨⟨parallel.scope, parallel.depth, parallel.store,
        parallel.discreet, parallel.printed, parallel.classes⟩, parallel.frames⟩ (.returning .nil))
    | some e => exact recoded_still (recoded_evaluating parallel e .giveBack rfl)
  | classDecl id name superclass methods =>
    obtain ⟨⟨_, known⟩, declarable, heritage, _⟩ := fits
    have alike := alike_of_class respects id store stands known
    cases superclass with
    | none =>
      have inner : m.Stands G shape ⟨context, add levels name, some name.lexeme⟩ :=
        (Static.Mirrors.announce stands declarable.named).stage (Names.stage declarable.named)
          (.inl rfl) .defined
      exact recoded_still (recoded_defineClass parallel store inner declarable alike
        (ϕ.mark_lexeme id name))
    | some use =>
      exact recoded_still (recoded_evaluating parallel (.read use)
        (.heritage heritage.1 alike (ϕ.mark_lexeme id name) methods) rfl)

theorem recoded_leaveCall (beside : m.Beside ϕ shape before other) (store : m.store.Fits G shape)
    {scope : ScopeId} {initialized : Option ScopeId}
    (frames : FramesRecoded ϕ G shape further scope m.frames other.frames)
    (object : ∀ own, initialized = some own → m.store.scopes.contains own "this" = true)
    (a : Value) :
    (m.leaveCall scope initialized a).Recoded ϕ G shape further before
      (other.leaveCall scope initialized (a.recode ϕ)) := by
  have inner : ({ m with scope, depth := m.depth - 1 } : Machine).Parallel ϕ G shape further before
      { other with scope, depth := other.depth - 1 } :=
    ⟨⟨rfl, congrArg (· - 1) beside.depth, beside.store, beside.discreet, beside.printed,
      beside.classes⟩, frames⟩
  cases initialized with
  | none => exact recoded_give inner a
  | some own =>
    obtain ⟨b, found⟩ := Forest.contains_iff_get.mp (object own rfl)
    have found' := get_recode store ϕ.bound_this found
    have given := recoded_give inner b
    simp only [leaveCall, found, beside.store, found']
    rw [beside.store] at given
    exact given

/-- Handing a value to a frame. -/
theorem recoded_resume (respects : ϕ.Respects G) (resolves : Resolves c.distances G)
    (same : Resolves c'.distances G) (limits : c'.depthLimit = c.depthLimit)
    (beside : m.Beside ϕ shape before other) (store : m.store.Fits G shape)
    (stands : m.Stands G shape p) {a : Value} (value : a.Fits (m.world G shape))
    {frame waiting : Frame}
    (fit : FramesFit (m.world G shape) (.value p) m.scope (frame :: m.frames))
    (alike : frame.Recoded ϕ G shape m.scope waiting)
    (later : FramesRecoded ϕ G shape further (frame.outside m.scope) m.frames other.frames) :
    (resume c m a frame).Recoded ϕ G (shape ++ resumeOpens c m a frame) further before
      (resume c' other (a.recode ϕ) waiting) := by
  cases alike with
  | assign id name =>
    have parallel : m.Parallel ϕ G shape further before other := ⟨beside, later⟩
    cases fit with
    | expression _ waits _ =>
      exact recoded_still (recoded_assignTo respects resolves same parallel store stands waits.2 a)
    | statement waits _ => exact False.elim waits
  | operand known =>
    exact recoded_still (recoded_giveResult ⟨beside, later⟩ (recoded_applyPrefix known a))
  | leftOperand known left right =>
    exact recoded_still (recoded_evaluating ⟨beside, later⟩ right
      (.rightOperand known a left right) rfl)
  | rightOperand known b left right =>
    exact recoded_still (recoded_giveResult ⟨beside, later⟩
      (recoded_applyBinary known left right b a))
  | shortcut id operator right =>
    have parallel : m.Parallel ϕ G shape further before other := ⟨beside, later⟩
    simp only [resume]
    rw [Value.isTruthy_recode, isKeyword_mark]
    by_cases short : a.isTruthy = operator.isKeyword .orWord
    · simp only [short, ↓reduceIte]
      exact recoded_still (recoded_give parallel a)
    · simp only [short, ↓reduceIte]
      exact recoded_still (.going ⟨⟨parallel.scope, parallel.depth, parallel.store,
        parallel.discreet, parallel.printed, parallel.classes⟩, parallel.frames⟩ (.evaluate right))
  | callee known callee arguments =>
    exact recoded_supply respects limits ⟨beside, later⟩ store known callee value [] arguments
  | argument known calleeValue callee given arguments =>
    cases fit with
    | expression _ waits _ =>
      exact recoded_supply respects limits ⟨beside, later⟩ store known callee waits.1 (a :: given)
        arguments
    | statement waits _ => exact False.elim waits
  | property known => exact recoded_readProperty ⟨beside, later⟩ store.sized known a
  | target known right =>
    have parallel : m.Parallel ϕ G shape further before other := ⟨beside, later⟩
    cases a with
    | object o =>
      exact recoded_still (recoded_evaluating parallel right (.field _ o _) rfl)
    | _ => exact recoded_still (recoded_complain parallel known (.same _))
  | field id o name =>
    refine recoded_still (.going ⟨⟨beside.scope, beside.depth, ?_, beside.discreet, beside.printed,
      beside.classes⟩, later⟩ (.value a))
    change other.store.setField (o.recode ϕ) (ϕ.mark id name).lexeme (a.recode ϕ) = _
    rw [beside.store, ϕ.mark_lexeme, Store.setField_recode]
    rfl
  | discard => exact recoded_still (recoded_finish ⟨beside, later⟩)
  | print =>
    refine recoded_still (.going ⟨⟨beside.scope, beside.depth, beside.store, beside.discreet, ?_,
      beside.classes⟩, later⟩ .done)
    change (a.recode ϕ).text :: other.printed = _
    rw [Value.text_recode, beside.printed]
    rfl
  | define alike =>
    cases fit with
    | expression _ waits _ => exact False.elim waits
    | statement waits _ => exact False.elim waits
    | define declarable _ =>
      have bindable := store.bindable stands (Names.stage declarable.named) declarable.ordinary a
      have defined := define_recode store alike bindable.named a
      refine recoded_still (.going ⟨⟨beside.scope, beside.depth, ?_, beside.discreet,
        beside.printed, beside.classes⟩, later⟩ .done)
      change other.store.define other.scope _ (a.recode ϕ) = _
      rw [beside.store, beside.scope]
      exact defined
  | choose yes no =>
    have parallel : m.Parallel ϕ G shape further before other := ⟨beside, later⟩
    have chosen : ∀ s : Stmt, Recoded ϕ G shape further before { m with control := .execute s }
        { other with control := .execute (s.recode ϕ) } := fun s =>
      .going ⟨⟨beside.scope, beside.depth, beside.store, beside.discreet, beside.printed,
        beside.classes⟩, later⟩ (.execute s)
    simp only [resume, Value.isTruthy_recode]
    by_cases taken : a.isTruthy = true
    · simp only [taken, ↓reduceIte]
      exact recoded_still (chosen yes)
    · simp only [taken, Bool.false_eq_true, ↓reduceIte]
      cases no with
      | none => exact recoded_still (recoded_finish parallel)
      | some no => exact recoded_still (chosen no)
  | test condition body =>
    have parallel : m.Parallel ϕ G shape further before other := ⟨beside, later⟩
    simp only [resume, Value.isTruthy_recode]
    by_cases taken : a.isTruthy = true
    · simp only [taken, ↓reduceIte]
      exact recoded_still (.going ⟨⟨beside.scope, beside.depth, beside.store, beside.discreet,
        beside.printed, beside.classes⟩, .cons (.again condition body) later⟩ (.execute body))
    · simp only [taken, Bool.false_eq_true, ↓reduceIte]
      exact recoded_still (recoded_finish parallel)
  | giveBack =>
    exact recoded_still (.going ⟨⟨beside.scope, beside.depth, beside.store, beside.discreet,
      beside.printed, beside.classes⟩, later⟩ (.returning a))
  | heritage known alike spelled methods =>
    cases fit with
    | expression _ waits _ => exact False.elim waits
    | statement waits _ => exact False.elim waits
    | heritage declarable _ _ =>
      cases a with
      | cls base =>
        exact recoded_defineDerived ⟨beside, later⟩ store stands declarable alike spelled value
      | _ =>
        exact recoded_still (recoded_fail ⟨beside, later⟩ (.use known _))
  | construct o => exact recoded_still (recoded_give ⟨beside, later⟩ (.object o))
  | again _ _ | sequence _ | leaveBlock _ | leaveCall _ _ =>
    cases fit with
    | expression _ waits _ => exact False.elim waits
    | statement waits _ => exact False.elim waits

theorem recoded_proceed {context : Context} {levels : List Level}
    (beside : m.Beside ϕ shape before other) (control : m.control = .done)
    (control' : other.control = .done) (store : m.store.Fits G shape) {frame waiting : Frame}
    (fit : FramesFit (m.world G shape) (.completion context levels) m.scope (frame :: m.frames))
    (alike : frame.Recoded ϕ G shape m.scope waiting)
    (later : FramesRecoded ϕ G shape further (frame.outside m.scope) m.frames other.frames) :
    (proceed m frame).Recoded ϕ G shape further before (proceed other waiting) := by
  have finished : m.control.Recoded ϕ G other.control := by
    rw [control, control']
    exact .done
  obtain ⟨_, _, _, _, _, _, _⟩ := m
  cases alike with
  | again condition body =>
    exact recoded_evaluating ⟨beside, later⟩ condition (.test condition body) rfl
  | sequence body =>
    cases body with
    | nil => exact .going ⟨beside, later⟩ finished
    | cons s rest =>
      exact .going ⟨⟨beside.scope, beside.depth, beside.store, beside.discreet, beside.printed,
        beside.classes⟩, .cons (.sequence rest) later⟩ (.execute s)
  | leaveBlock scope =>
    exact .going ⟨⟨rfl, beside.depth, beside.store, beside.discreet, beside.printed,
      beside.classes⟩, later⟩ finished
  | leaveCall scope initialized =>
    cases fit with
    | leaveCall _ object _ => exact recoded_leaveCall beside store later object .nil
  | _ => exact .going ⟨beside, later⟩ finished

theorem recoded_passReturn {context : Context} {levels : List Level} {a : Value}
    (beside : m.Beside ϕ shape before other) (control : m.control = .returning a)
    (control' : other.control = .returning (a.recode ϕ)) (store : m.store.Fits G shape)
    {frame waiting : Frame}
    (fit : FramesFit (m.world G shape) (.completion context levels) m.scope (frame :: m.frames))
    (alike : frame.Recoded ϕ G shape m.scope waiting)
    (later : FramesRecoded ϕ G shape further (frame.outside m.scope) m.frames other.frames) :
    (passReturn m a frame).Recoded ϕ G shape further before
      (passReturn other (a.recode ϕ) waiting) := by
  have returned : m.control.Recoded ϕ G other.control := by
    rw [control, control']
    exact .returning a
  obtain ⟨_, _, _, _, _, _, _⟩ := m
  cases alike with
  | leaveBlock scope =>
    exact .going ⟨⟨rfl, beside.depth, beside.store, beside.discreet, beside.printed,
      beside.classes⟩, later⟩ returned
  | leaveCall scope initialized =>
    cases fit with
    | leaveCall _ object _ => exact recoded_leaveCall beside store later object a
  | _ => exact .going ⟨beside, later⟩ returned

theorem recoded_passFailure (beside : m.Beside ϕ shape before other)
    (failed : m.control.Recoded ϕ G other.control) {frame waiting : Frame}
    (alike : frame.Recoded ϕ G shape m.scope waiting)
    (later : FramesRecoded ϕ G shape further (frame.outside m.scope) m.frames other.frames) :
    (passFailure m frame).Recoded ϕ G shape further before (passFailure other waiting) := by
  cases alike with
  | leaveBlock scope =>
    exact .going ⟨⟨rfl, beside.depth, beside.store, beside.discreet, beside.printed,
      beside.classes⟩, later⟩ failed
  | leaveCall scope initialized =>
    exact .going ⟨⟨rfl, congrArg (· - 1) beside.depth, beside.store, beside.discreet,
      beside.printed, beside.classes⟩, later⟩ failed
  | _ => exact .going ⟨beside, later⟩ failed

theorem step_of_over (c : Setting) (halted : m.isOver = true) : step c m = m ∧ opens c m = [] := by
  obtain ⟨control, frames, scope, depth, store, printed, classes⟩ := m
  cases control with
  | evaluate e => cases halted
  | execute s => cases halted
  | value a | done | returning a | failing f =>
    cases List.isEmpty_iff.mp halted
    exact ⟨rfl, rfl⟩

theorem isOver_recoded (recoded : m.Recoded ϕ G shape further before other) :
    other.isOver = m.isOver := by
  obtain ⟨control, frames, scope, depth, store, printed, classes⟩ := m
  obtain ⟨control', frames', scope', depth', store', printed', classes'⟩ := other
  cases recoded with
  | ended beside halted left right alike =>
    cases left
    cases right
    cases alike <;> rfl
  | going parallel alike =>
    have corresponding := parallel.frames
    cases corresponding <;> cases alike <;> rfl

theorem Beside.taking (beside : m.Beside ϕ shape before other) (rest others : List Frame) :
    ({ m with frames := rest } : Machine).Beside ϕ shape before { other with frames := others } :=
  ⟨beside.scope, beside.depth, beside.store, beside.discreet, beside.printed, beside.classes⟩

theorem topLevel_of_last {w : World} {demand : Demand} {e : ScopeId}
    (fit : FramesFit w demand e []) : demand.place.context.function = .topLevel := by
  cases fit
  rfl

/-- The next states of a run and of its recoding correspond, unless the first run is over and the
second goes on. -/
theorem recoded_step (respects : ϕ.Respects G) (resolves : Resolves c.distances G)
    (same : Resolves c'.distances G) (limits : c'.depthLimit = c.depthLimit)
    (fits : m.Fits G shape) (recoded : m.Recoded ϕ G shape further before other)
    (final : m.control = .done → m.frames = [.sequence []] → further = []) :
    (step c m).Recoded ϕ G (shape ++ opens c m) further before (step c' other) := by
  have over_alike := isOver_recoded recoded
  obtain ⟨control, frames, scope, depth, store, printed, classes⟩ := m
  obtain ⟨control', frames', scope', depth', store', printed', classes'⟩ := other
  cases recoded with
  | ended beside halted left right alike closed =>
    obtain ⟨still, none_opened⟩ := step_of_over c halted
    rw [still, none_opened, (step_of_over c' (over_alike.trans halted)).1]
    exact recoded_still (.ended beside halted left right alike closed)
  | going parallel alike =>
    obtain ⟨beside, corresponding⟩ := parallel
    have last : ∀ {control control' : Control}, control.Recoded ϕ G control' →
        (control = .done ∧ further = [] ∨ ∃ f, control = .failing f) →
        Recoded ϕ G shape further before ⟨control, [], scope, depth, store, printed, classes⟩
          ⟨control', [], scope', depth', store', printed', classes'⟩ := by
      intro control control' alike ended
      refine .ended ⟨beside.scope, beside.depth, beside.store, beside.discreet, beside.printed,
        beside.classes⟩ ?_ rfl rfl alike ?_
      · rcases ended with ⟨rfl, _⟩ | ⟨f, rfl⟩ <;> rfl
      · rcases ended with ⟨_, closed⟩ | ⟨f, rfl⟩
        · exact fun _ => closed
        · exact nofun
    cases fits with
    | evaluate p at_phrase expects stands fits awaited =>
      cases at_phrase
      cases alike
      exact recoded_evaluate respects resolves same ⟨beside, corresponding⟩ expects.store stands fits
    | execute context levels at_phrase expects stands fits =>
      cases at_phrase
      cases alike
      exact recoded_execute respects ⟨beside, corresponding⟩ expects.store stands fits
    | value p at_phrase expects stands value =>
      cases at_phrase
      cases alike
      have frames_fit := expects.frames
      cases corresponding with
      | last body =>
        cases frames_fit with
        | expression _ waits _ => exact False.elim waits
        | statement waits _ => exact False.elim waits
      | @cons _ _ _ rest others first later =>
        exact recoded_resume respects resolves same limits (beside.taking rest others)
          expects.store stands value frames_fit first later
    | done context levels at_phrase expects stands =>
      cases at_phrase
      cases alike
      cases corresponding with
      | last body =>
        cases body with
        | nil =>
          cases final rfl rfl
          exact recoded_still (last .done (.inl ⟨rfl, rfl⟩))
        | cons s rest =>
          exact recoded_still (.going ⟨⟨beside.scope, beside.depth, beside.store, beside.discreet,
            beside.printed, beside.classes⟩, .last rest⟩ (.execute s))
      | @cons _ _ _ rest others first later =>
        exact recoded_still (recoded_proceed (beside.taking rest others) rfl rfl expects.store
          expects.frames first later)
    | returning context levels at_phrase expects inside value =>
      cases at_phrase
      cases alike
      have frames_fit := expects.frames
      cases corresponding with
      | last body =>
        cases frames_fit with
        | sequence _ others => exact absurd (topLevel_of_last others) inside
      | @cons _ _ _ rest others first later =>
        exact recoded_still (recoded_passReturn (beside.taking rest others) rfl rfl expects.store
          frames_fit first later)
    | failing demand at_phrase expects admissible =>
      cases at_phrase
      cases alike with
      | failing alike =>
        cases corresponding with
        | last body => exact recoded_still (last (.failing alike) (.inr ⟨_, rfl⟩))
        | @cons _ _ _ rest others first later =>
          exact recoded_still (recoded_passFailure (beside.taking rest others) (.failing alike) first
            later)

theorem run_succ (c : Setting) (n : Nat) (m : Machine) : run c (n + 1) m = step c (run c n m) := by
  induction n generalizing m with
  | zero =>
    unfold run
    split
    · rename_i halted
      exact (step_of_over c halted).1.symm
    · rfl
  | succ n ih =>
    rw [run]
    split
    · rename_i halted
      have stays : run c (n + 1) m = m := by
        rw [run, if_pos halted]
      rw [stays]
      exact (step_of_over c halted).1.symm
    · rename_i going
      rw [ih, run, if_neg going]

theorem run_add (c : Setting) (n k : Nat) (m : Machine) : run c (n + k) m = run c k (run c n m) := by
  induction k with
  | zero => rfl
  | succ k ih => rw [← Nat.add_assoc, run_succ, ih, run_succ]

def AtEnd (m : Machine) : Prop := m.control = .done ∧ m.frames = [.sequence []]

/-- The states correspond after every number of steps, as long as the second run does not go on with
what the first one does not have. -/
theorem recoded_run (respects : ϕ.Respects G) (resolves : Resolves c.distances G)
    (same : Resolves c'.distances G) (limits : c'.depthLimit = c.depthLimit)
    (fits : m.Fits G shape) (recoded : m.Recoded ϕ G shape further before other) (n : Nat)
    (final : ∀ k < n, (run c k m).AtEnd → further = []) :
    ∃ added, (run c n m).Fits G (shape ++ added) ∧
      (run c n m).Recoded ϕ G (shape ++ added) further before (run c' n other) := by
  induction n with
  | zero => exact ⟨[], fits_still fits, recoded_still recoded⟩
  | succ n ih =>
    obtain ⟨added, still_fits, still⟩ := ih fun k sooner => final k (Nat.lt_succ_of_lt sooner)
    refine ⟨added ++ opens c (run c n m), ?_⟩
    have next_fits := fits_step resolves still_fits
    have next := recoded_step respects resolves same limits still_fits still
      fun done frames => final n (Nat.lt_succ_self n) ⟨done, frames⟩
    rw [List.append_assoc] at next_fits next
    rw [run_succ, run_succ]
    exact ⟨next_fits, next⟩

theorem run_of_atEnd (ended : m.AtEnd) (n : Nat) :
    run c (n + 1) m = { m with control := .done, frames := [] } := by
  obtain ⟨control, frames, scope, depth, store, printed, classes⟩ := m
  obtain ⟨rfl, rfl⟩ := ended
  cases n <;> rfl

theorem run_of_over (halted : m.isOver = true) (n : Nat) : run c n m = m := by
  cases n with
  | zero => rfl
  | succ n => rw [run, if_pos halted]

end LoxMachine.Machine
