import LoxMachine.Proofs.Grammar.Spelled
import LoxMachine.Proofs.Form.Legible

namespace LoxMachine

theorem legible_current {c : Cursor} (legible : ∀ t ∈ c.rest, t.Legible) : c.current.Legible := by
  obtain ⟨rest, i⟩ := c
  cases rest with
  | nil => exact legible_ending 0
  | cons t rest => exact legible t List.mem_cons_self

namespace Reader

variable {α β : Type}

def Yields (r : Reader α) (made : α → Prop) : Prop :=
  ∀ first, Takes Token.Legible first r (fun _ => made) Unseen

namespace Yields

variable {r : Reader α} {f : α → Reader β} {made : α → Prop} {built : β → Prop}

theorem of_takes {spelled : List Token → α → Prop} {seen : α → Token → Prop}
    (takes : ∀ {first : Token → Prop}, Takes Token.Legible first r spelled seen)
    (enough : ∀ taken a, spelled taken a → (∀ t ∈ taken, t.Legible) → made a) : r.Yields made := by
  intro first c a c' legible here read
  obtain ⟨taken, split, known, -⟩ := takes c a c' legible here read
  refine ⟨taken, split, enough taken a known ?_, True.intro⟩
  intro t member
  apply legible
  rw [split]
  exact List.mem_append_left _ member

theorem bind (one : r.Yields made) (two : ∀ a, made a → (f a).Yields built) : (r >>= f).Yields built :=
  fun first => (one first).bind fun _ a known => two a known _

theorem pure {a : α} (known : made a) : Yields (pure a) made :=
  fun _ => Takes.pure known fun _ _ => True.intro

theorem map {g : α → β} (one : r.Yields fun a => built (g a)) : Yields (g <$> r) built :=
  one.bind fun _ known => pure known

theorem node {build : NodeId → α} (known : ∀ i, made (build i)) : Yields (node build) made :=
  fun _ => Takes.node known fun _ _ _ => True.intro

theorem expect {s : Symbol} {place : Place} : Yields (expect s place) fun _ => True :=
  fun _ => Takes.expect.mono fun _ _ _ => True.intro

theorem expectName {role : NameRole} : Yields (expectName role) Token.Named := by
  apply of_takes Takes.expectName
  rintro _ t ⟨kind, rfl⟩ legible
  exact ⟨kind, legible t (List.mem_singleton_self t)⟩

theorem takeIf {test : Token → Bool} (kindly : KindTest test) :
    Yields (takeIf test) fun _ => True := by
  intro first
  rw [← bind_pure (Reader.takeIf test)]
  apply Takes.takeIf_bind kindly
  · exact fun _ _ _ => Takes.pure True.intro fun _ _ => True.intro
  · exact Takes.pure True.intro fun _ _ => True.intro

theorem many {test : Token → Bool} {item : Reader α}
    (each : Takes Token.Legible (test · = true) item (fun _ => made) Unseen) :
    Yields (many test item) fun items => ∀ a ∈ items, made a := by
  let all : List Token → List α → Prop := fun _ items => ∀ a ∈ items, made a
  have step : ∀ taken items, all taken items →
      Takes Token.Legible (test · = true) (do return (← item) :: items)
        (fun more => all (taken ++ more)) Unseen := by
    intro _ items before
    apply each.bind
    intro _ a known
    exact Takes.pure (List.forall_mem_cons.mpr ⟨known, before⟩) fun _ _ => True.intro
  intro first
  have loop := @Takes.repeatWhile _ Token.Legible first all test _ step [] [] nofun
  apply loop.bind
  intro _ items known
  exact Takes.pure (fun a member => known a (List.mem_reverse.mp member)) fun _ _ => True.intro

theorem separatedBefore {closing : Symbol} {item : Reader α} (each : item.Yields made) :
    Yields (separatedBefore closing item) fun items => ∀ a ∈ items, made a := by
  have another : Takes Token.Legible (·.isSymbol .comma = true) (do let _ ← Reader.take; item)
      (fun _ => made) Unseen := by
    apply (Takes.take (KindTest.symbol .comma).goes).before
    exact fun _ _ => each _
  have listed : Yields (separated item) fun items => ∀ a ∈ items, made a := by
    apply each.bind
    intro a known
    apply (many another).bind
    exact fun items others => pure (List.forall_mem_cons.mpr ⟨known, others⟩)
  intro first
  apply Takes.current_bind
  intro t _
  split
  · exact Takes.pure nofun fun _ _ => True.intro
  · exact listed _

theorem optionalBefore {closing : Symbol} {item : Reader α} (each : item.Yields made) :
    Yields (optionalBefore closing item) fun value => ∀ a ∈ value, made a := by
  have present : Yields (do return some (← item)) fun value => ∀ a ∈ value, made a := by
    apply each.bind
    rintro a known
    apply pure
    rintro _ ⟨⟩
    exact known
  intro first
  apply Takes.current_bind
  intro t _
  split
  · exact Takes.pure nofun fun _ _ => True.intro
  · exact present _

theorem afterWord {t : Token} {k : Kind} (kind : t.kind = k) (inner : (k == .endOfInput) = false)
    (rest : r.Yields made) :
    Takes Token.Legible (· = t) (do let _ ← Reader.take; r) (fun _ => made) Unseen := by
  apply (Takes.take _).before
  · exact fun _ _ => rest _
  · rintro _ rfl
    exact Token.open_of_kind kind inner

end Yields

end Reader

namespace Grammar

open Reader

theorem yields_expression : expression.Yields Expr.Legible := by
  apply Yields.of_takes takes_expression
  rintro taken e ⟨spells, shaped, -⟩ legible
  exact legible_of_words e shaped (legible_of_spells spells legible)

theorem yields_expressionStatement : expressionStatement.Yields Stmt.Legible := by
  apply yields_expression.bind
  intro e known
  exact Yields.expect.bind fun _ _ => Yields.node fun _ => known

theorem yields_varDeclaration : varDeclaration.Yields Stmt.Legible := by
  apply Yields.expectName.bind
  intro name named
  apply (Yields.takeIf (KindTest.symbol .equal)).bind
  intro found _
  have rest : ∀ value, OptionalLegible value →
      Yields (do let _ ← expect .semicolon .afterVariable; node (Stmt.var · name value))
        Stmt.Legible := by
    intro value known
    exact Yields.expect.bind fun _ _ => Yields.node fun _ => ⟨named, known⟩
  cases found with
  | true =>
    have value : Yields (some <$> expression) OptionalLegible := by
      apply Yields.map
      intro first
      apply (yields_expression first).mono
      rintro _ e known _ ⟨⟩
      exact known
    exact value.bind rest
  | false => exact rest none nofun

section Nested

variable {declaration statement : Reader Stmt} (declarations : declaration.Yields Stmt.Legible)
  (statements : statement.Yields Stmt.Legible)

include declarations in
theorem yields_block : (block declaration).Yields StmtsLegible := by
  apply (Yields.many (declarations _)).bind
  intro body known
  exact Yields.expect.bind fun _ _ => Yields.pure (stmtsLegible_iff.mpr known)

include declarations in
theorem yields_function (sort : FunctionSort) :
    (function declaration sort).Yields FunctionDecl.Legible := by
  apply Yields.expectName.bind
  intro name named
  apply Yields.expect.bind
  intro _ _
  apply (Yields.separatedBefore Yields.expectName).bind
  intro params all_named
  apply Yields.expect.bind
  intro _ _
  apply Yields.expect.bind
  intro _ _
  apply (yields_block declarations).bind
  intro body known
  exact Yields.node fun _ => ⟨named, all_named, known⟩

include declarations in
theorem yields_classDeclaration : (classDeclaration declaration).Yields Stmt.Legible := by
  apply Yields.expectName.bind
  intro name named
  apply (Yields.takeIf (KindTest.symbol .less)).bind
  intro found _
  have rest : ∀ superclass : Option Variable, (∀ use ∈ superclass, use.name.Named) →
      Yields (do
        let _ ← expect .leftBrace .beforeClassBody
        let methods ←
          many (fun t => !t.isSymbol .rightBrace && !t.isEnding) (function declaration .method)
        let _ ← expect .rightBrace .afterClassBody
        node (Stmt.classDecl · name superclass methods)) Stmt.Legible := by
    intro superclass inherited
    apply Yields.expect.bind
    intro _ _
    apply (Yields.many (yields_function declarations .method _)).bind
    intro methods known
    apply Yields.expect.bind
    intro _ _
    exact Yields.node fun _ => ⟨named, inherited, methodsLegible_iff.mpr known⟩
  cases found with
  | true =>
    apply Yields.expectName.bind
    intro superName known
    have use : Yields (some <$> node (Variable.mk · superName))
        fun superclass => ∀ use ∈ superclass, use.name.Named := by
      apply Yields.map
      apply Yields.node
      rintro i _ ⟨⟩
      exact known
    exact use.bind rest
  | false => exact rest none nofun

theorem yields_forInitializer :
    forInitializer.Yields fun initializer => ∀ s ∈ initializer, s.Legible := by
  have present : ∀ {r : Reader Stmt}, r.Yields Stmt.Legible →
      Yields (some <$> r) fun initializer => ∀ s ∈ initializer, s.Legible := by
    intro r each
    apply Yields.map
    intro first
    apply (each first).mono
    rintro _ s known _ ⟨⟩
    exact known
  apply (Yields.takeIf (KindTest.symbol .semicolon)).bind
  intro empty _
  cases empty with
  | true => exact Yields.pure nofun
  | false =>
    apply (Yields.takeIf (KindTest.word .varWord)).bind
    intro declared _
    cases declared with
    | true => exact present yields_varDeclaration
    | false => exact present yields_expressionStatement

theorem legible_literal_true (i : NodeId) : (Expr.literal i (.bool true)).Legible := True.intro

theorem yields_forLoopOf {initializer : Option Stmt} {condition increment : Option Expr} {body : Stmt}
    (begins : ∀ s ∈ initializer, s.Legible) (tested : OptionalLegible condition)
    (stepped : OptionalLegible increment) (repeated : body.Legible) :
    (forLoopOf initializer condition increment body).Yields Stmt.Legible := by
  have around : ∀ e body, e.Legible → body.Legible →
      (forLoopOf initializer (some e) none body).Yields Stmt.Legible := by
    intro e body tested known
    have made : Yields (node (Stmt.loop · e body)) Stmt.Legible :=
      Yields.node fun _ => ⟨tested, known⟩
    cases initializer with
    | none => exact made.bind fun _ known => Yields.pure known
    | some s =>
      have block : ∀ loop : Stmt, loop.Legible → Yields (node (Stmt.block · [s, loop])) Stmt.Legible :=
        fun _ known => Yields.node fun _ => ⟨begins s rfl, known, True.intro⟩
      exact made.bind block
  have loop : ∀ body, body.Legible →
      (forLoopOf initializer condition none body).Yields Stmt.Legible := by
    intro body known
    cases condition with
    | some e => exact around e body (tested e rfl) known
    | none =>
      have truth : Yields (node (Expr.literal · (.bool true))) Expr.Legible :=
        Yields.node legible_literal_true
      exact truth.bind fun e tested => around e body tested known
  cases increment with
  | none => exact loop body repeated
  | some e =>
    have step : Yields (node (Stmt.expression · e)) Stmt.Legible := Yields.node fun _ => stepped e rfl
    apply step.bind
    intro step known
    have both : Yields (node (Stmt.block · [body, step])) Stmt.Legible :=
      Yields.node fun _ => ⟨repeated, known, True.intro⟩
    exact both.bind loop

include statements in
theorem yields_forLoop : (forLoop statement).Yields Stmt.Legible := by
  apply Yields.expect.bind
  intro _ _
  apply yields_forInitializer.bind
  intro initializer begins
  apply (Yields.optionalBefore yields_expression).bind
  intro condition tested
  apply Yields.expect.bind
  intro _ _
  apply (Yields.optionalBefore yields_expression).bind
  intro increment stepped
  apply Yields.expect.bind
  intro _ _
  apply statements.bind
  intro body repeated
  exact yields_forLoopOf begins tested stepped repeated

include statements in
theorem yields_conditional : (conditional statement).Yields Stmt.Legible := by
  apply Yields.expect.bind
  intro _ _
  apply yields_expression.bind
  intro condition tested
  apply Yields.expect.bind
  intro _ _
  apply statements.bind
  intro yes chosen
  apply (Yields.takeIf (KindTest.word .elseWord)).bind
  intro found _
  cases found with
  | true =>
    have other : Yields (some <$> statement) fun no => ∃ s, no = some s ∧ s.Legible := by
      apply Yields.map
      intro first
      apply (statements first).mono
      exact fun _ s known => ⟨s, rfl, known⟩
    apply other.bind
    rintro _ ⟨no, rfl, known⟩
    exact Yields.node fun _ => ⟨tested, chosen, known⟩
  | false =>
    have alone : Yields (node (Stmt.branch · condition yes none)) Stmt.Legible :=
      Yields.node fun _ => ⟨tested, chosen⟩
    exact alone

include statements in
theorem yields_whileLoop : (whileLoop statement).Yields Stmt.Legible := by
  apply Yields.expect.bind
  intro _ _
  apply yields_expression.bind
  intro condition tested
  apply Yields.expect.bind
  intro _ _
  apply statements.bind
  intro body known
  exact Yields.node fun _ => ⟨tested, known⟩

theorem yields_printStatement : printStatement.Yields Stmt.Legible := by
  apply yields_expression.bind
  intro e known
  exact Yields.expect.bind fun _ _ => Yields.node fun _ => known

theorem yields_returnStatement {t : Token} (word : t.kind = .keyword .returnWord) (legible : t.Legible) :
    (returnStatement t).Yields Stmt.Legible := by
  apply (Yields.optionalBefore yields_expression).bind
  intro value known
  exact Yields.expect.bind fun _ _ => Yields.node fun _ => ⟨⟨word, legible⟩, known⟩

include declarations statements in
theorem yields_statementOver : (statementOver declaration statement).Yields Stmt.Legible := by
  intro first
  apply Takes.current_bind
  intro t _
  split
  · rename_i word
    exact Yields.afterWord word rfl (yields_forLoop statements)
  · rename_i word
    exact Yields.afterWord word rfl (yields_conditional statements)
  · rename_i word
    exact Yields.afterWord word rfl yields_printStatement
  · rename_i word
    intro c s c' legible here read
    have known : t.Legible := here ▸ legible_current legible
    exact Yields.afterWord word rfl (yields_returnStatement word known) c s c' legible here read
  · rename_i word
    exact Yields.afterWord word rfl (yields_whileLoop statements)
  · rename_i begins
    apply Yields.afterWord begins rfl
    apply (yields_block declarations).bind
    intro body known
    exact Yields.node fun _ => known
  · exact yields_expressionStatement _

include declarations statements in
theorem yields_declarationOver : (declarationOver declaration statement).Yields Stmt.Legible := by
  intro first
  apply Takes.current_bind
  intro t _
  split
  · rename_i word
    exact Yields.afterWord word rfl (yields_classDeclaration declarations)
  · rename_i word
    have whole : Yields (Stmt.function <$> function declaration .function) Stmt.Legible :=
      Yields.map (yields_function declarations .function)
    exact Yields.afterWord word rfl whole
  · rename_i word
    exact Yields.afterWord word rfl yields_varDeclaration
  · exact yields_statementOver declarations statements _

end Nested

theorem yields_within (n : Nat) :
    (Yields (fun c => declarationWithin n c) Stmt.Legible) ∧
      Yields (fun c => statementWithin n c) Stmt.Legible := by
  induction n with
  | zero =>
    constructor
    · intro first c s c' _ _ read
      cases read
    · intro first c s c' _ _ read
      cases read
  | succ n ih => exact ⟨yields_declarationOver ih.1 ih.2, yields_statementOver ih.1 ih.2⟩

theorem yields_program : program.Yields fun body => ∀ s ∈ body, s.Legible := by
  have each : declaration.Yields Stmt.Legible :=
    fun first c => (yields_within (c.rest.length + 1)).1 first c
  exact Yields.many (each _)

end Grammar

theorem legible_of_parse {i : NodeId} {tokens : List Token} {body : List Stmt} {stop : Cursor}
    (legible : ∀ t ∈ tokens, t.Legible) (parsed : parse i tokens = (.ok body, stop)) :
    ∀ s ∈ body, s.Legible := by
  have read : Grammar.program ⟨tokens, i⟩ = .ok body stop :=
    Grammar.program_eq_ok.mpr (Grammar.parse_eq_ok.mp parsed)
  obtain ⟨_, _, known, _⟩ :=
    Grammar.yields_program Reader.Any ⟨tokens, i⟩ body stop legible True.intro read
  exact known

end LoxMachine
