import LoxMachine.Proofs.Grammar.Loops
import LoxMachine.Proofs.Session.Layout
import LoxMachine.Proofs.Session.ScopeMirror

namespace LoxMachine

/-- A statement with a hole in it for another one. The numbers of its own nodes do not matter. -/
inductive Hole where
  | here
  | block (before : List Stmt) (inner : Hole) (after : List Stmt)
  | yes (condition : Expr) (inner : Hole) (otherwise : Option Stmt)
  | no (condition : Expr) (chosen : Stmt) (inner : Hole)
  | body (condition : Expr) (inner : Hole)
  | function (name : Token) (params : List Token) (before : List Stmt) (inner : Hole)
    (after : List Stmt)
  | method (className : Token) (superclass : Option Variable) (methods : List FunctionDecl)
    (name : Token) (params : List Token) (before : List Stmt) (inner : Hole) (after : List Stmt)
    (others : List FunctionDecl)

namespace Hole

/-- The statement with the other one in the hole. -/
def fill (s : Stmt) : Hole → Stmt
  | .here => s
  | .block before inner after => .block 0 (before ++ inner.fill s :: after)
  | .yes condition inner otherwise => .branch 0 condition (inner.fill s) otherwise
  | .no condition chosen inner => .branch 0 condition chosen (some (inner.fill s))
  | .body condition inner => .loop 0 condition (inner.fill s)
  | .function name params before inner after =>
    .function (.mk 0 name params (before ++ inner.fill s :: after))
  | .method className superclass methods name params before inner after others =>
    .classDecl 0 className superclass
      (methods ++ .mk 0 name params (before ++ inner.fill s :: after) :: others)

def within (hole : Hole) (front back : List Stmt) (s : Stmt) : List Stmt :=
  front ++ hole.fill s :: back

variable {one other : Stmt} (same : one.bare = other.bare) (hole : Hole)

include same

theorem bare_fill : (hole.fill one).bare = (hole.fill other).bare := by
  induction hole with
  | here => exact same
  | yes condition inner otherwise ih => cases otherwise <;> simp only [fill, Stmt.bare, ih]
  | no | body => simp only [fill, Stmt.bare, *]
  | block => simp only [fill, Stmt.bare, stmtsBare_eq, List.map_append, List.map_cons, *]
  | function =>
    simp only [fill, Stmt.bare, FunctionDecl.bare, stmtsBare_eq, List.map_append, List.map_cons, *]
  | method =>
    simp only [fill, Stmt.bare, FunctionDecl.bare, methodsBare_eq, stmtsBare_eq, List.map_append,
      List.map_cons, *]

theorem bare_within (front back : List Stmt) :
    stmtsBare (hole.within front back one) = stmtsBare (hole.within front back other) := by
  simp only [within, stmtsBare_eq, List.map_append, List.map_cons, hole.bare_fill same]

end Hole

theorem genuine_of_ending {t : Token} (ending : t.isEnding = true) : t.Genuine := by
  have kind : t.kind = .endOfInput := eq_of_beq ending
  unfold Token.Genuine
  rw [kind]
  exact True.intro

namespace Session

open Grammar

section Expansion

variable {initializer condition increment body tokens written : List Token} {first : Option Stmt}
  {c e : Option Expr} {s : Stmt} {closing ending : Token}

/-- A `for` loop of clauses and a body is read as the same tree, but for numbers and lines, as the
text that one would write by hand for it. So the two are resolved alike, and wherever one of them
stands in a program in the place of the other, all uses of the programs have the same distances and
all runs come to the same but for lines. -/
theorem alike_of_expansion (initial : FirstClause initializer first) (tested : Clause condition c)
    (step : Clause increment e) (looped : statement.Spans body s)
    (loop : Spells Eq (loopWords initializer condition increment body) tokens)
    (expansion : Spells Eq (expansionWords initializer condition increment body) written)
    (last : closing.isEnding = true) (last' : ending.isEnding = true) (i j : NodeId) :
    ∃ tree other stop stop',
      parse i (tokens ++ [closing]) = (.ok [tree], stop) ∧ stop.rest = [closing] ∧
      parse j (written ++ [ending]) = (.ok [other], stop') ∧ stop'.rest = [ending] ∧
      tree.bare = other.bare ∧
      ((∀ t ∈ tokens, t.Genuine) → (∀ t ∈ written, t.Genuine) → ResolveAlike [tree] [other]) ∧
      ∀ {programs held} {s : Session} {source source' program next} (hole : Hole)
        (front back : List Stmt), Reachable programs held s → s.store.Discreet →
        (s.read source).2 = .ok program → (s.read source').2 = .ok next →
        stmtsBare program = stmtsBare (hole.within front back tree) →
        stmtsBare next = stmtsBare (hole.within front back other) →
        ResolveAlike program next ∧ s.RunAlike source source' := by
  obtain ⟨tree, stop, parsed, rest, shape⟩ := parse_of_loop initial tested step looped loop last i
  obtain ⟨other, stop', parsed', rest', shape'⟩ :=
    parse_of_expansion initial tested step looped expansion last' j
  have same : tree.bare = other.bare := shape.trans shape'.symm
  refine ⟨tree, other, stop, stop', parsed, rest, parsed', rest', same, ?_, ?_⟩
  · intro genuine genuine'
    have alone : stmtsBare [tree] = stmtsBare [other] := congrArg (· :: []) same
    refine resolveAlike_of_bare (built_of_parse ?_ parsed).1 (built_of_parse ?_ parsed').1 alone
    · exact List.forall_mem_append.mpr
        ⟨genuine, List.forall_mem_singleton.mpr (genuine_of_ending last)⟩
    · exact List.forall_mem_append.mpr
        ⟨genuine', List.forall_mem_singleton.mpr (genuine_of_ending last')⟩
  · intro programs held s source source' program next hole front back reached discreet read read'
      one two
    refine alike_of_bare reached discreet read read' ?_
    rw [one, two]
    exact hole.bare_within same front back

end Expansion

def firstSign (s : Symbol) : Token := ⟨.symbol s, s.spelling, 1⟩

def firstWord (word : Keyword) : Token := ⟨.keyword word, word.spelling, 1⟩

def startTokens : List Token :=
  [firstWord .varWord, firstLine "a", firstSign .equal, firstWord .trueWord, firstSign .semicolon]

def stepTokens : List Token := [firstLine "a", firstSign .equal, firstWord .falseWord]

def printTokens : List Token := [firstWord .printWord, firstLine "a", firstSign .semicolon]

def forTokens : List Token :=
  firstWord .forWord :: firstSign .leftParen :: startTokens ++
    firstLine "a" :: firstSign .semicolon :: stepTokens ++ firstSign .rightParen :: printTokens

def handTokens : List Token :=
  firstSign .leftBrace :: startTokens ++ firstWord .whileWord :: firstSign .leftParen ::
    firstLine "a" :: firstSign .rightParen :: firstSign .leftBrace :: printTokens ++ stepTokens ++
      [firstSign .semicolon, firstSign .rightBrace, firstSign .rightBrace]

theorem tokenize_for :
    tokenize "for (var a = true; a; a = false) print a;" = .ok (forTokens ++ [.ending 1]) := by rfl

theorem tokenize_hand :
    tokenize "\x7b var a = true; while (a) \x7b print a; a = false; \x7d \x7d" =
      .ok (handTokens ++ [.ending 1]) := by rfl

/-- The tree of both texts; the numbers are those of the first node of the body and of the last
clause. -/
def countedTree (body step : NodeId) : Stmt :=
  .block 12 [.var 2 (firstLine "a") (some (.literal 1 (.bool true))),
    .loop 11 (.read ⟨3, firstLine "a"⟩)
      (.block 10 [.print (body + 1) (.read ⟨body, firstLine "a"⟩),
        .expression 9 (.assign (step + 1) (firstLine "a") (.literal step (.bool false)))])]

/-- A loop that prints once, and the same by hand, each as the whole of a program. -/
theorem alike_of_print_loop :
    let s := empty "main"
    let source := "for (var a = true; a; a = false) print a;"
    let written := "\x7b var a = true; while (a) \x7b print a; a = false; \x7d \x7d"
    FirstClause startTokens (some (.var 1 (firstLine "a") (some (.literal 0 (.bool true))))) ∧
      Clause [firstLine "a"] (some (.read ⟨0, firstLine "a"⟩)) ∧
      Clause stepTokens (some (.assign 2 (firstLine "a") (.literal 1 (.bool false)))) ∧
      statement.Spans printTokens (.print 1 (.read ⟨0, firstLine "a"⟩)) ∧
      Spells Eq (loopWords startTokens [firstLine "a"] stepTokens printTokens) forTokens ∧
      Spells Eq (expansionWords startTokens [firstLine "a"] stepTokens printTokens) handTokens ∧
      (s.read source).2 = .ok [countedTree 7 5] ∧ (s.read written).2 = .ok [countedTree 4 7] ∧
      ResolveAlike [countedTree 7 5] [countedTree 4 7] ∧ s.RunAlike source written := by
  intro s source written
  have one : parse 1 (forTokens ++ [.ending 1]) = (.ok [countedTree 7 5], _) := rfl
  have two : parse 1 (handTokens ++ [.ending 1]) = (.ok [countedTree 4 7], _) := rfl
  have read : (s.read source).2 = .ok [countedTree 7 5] :=
    (read_of_tokenize tokenize_for s).trans (congrArg (·.1.mapError Rejection.grammar) one)
  have read' : (s.read written).2 = .ok [countedTree 4 7] :=
    (read_of_tokenize tokenize_hand s).trans (congrArg (·.1.mapError Rejection.grammar) two)
  have initial : FirstClause startTokens
      (some (.var 1 (firstLine "a") (some (.literal 0 (.bool true))))) :=
    .declares rfl ⟨.ending 1, _, rfl, rfl, rfl⟩
  have tested : Clause [firstLine "a"] (some (.read ⟨0, firstLine "a"⟩)) :=
    .filled ⟨.ending 1, _, rfl, rfl, rfl⟩
  have step : Clause stepTokens (some (.assign 2 (firstLine "a") (.literal 1 (.bool false)))) :=
    .filled ⟨.ending 1, _, rfl, rfl, rfl⟩
  have body : statement.Spans printTokens (.print 1 (.read ⟨0, firstLine "a"⟩)) :=
    ⟨.ending 1, _, rfl, rfl, rfl⟩
  have loop :
      Spells Eq (loopWords startTokens [firstLine "a"] stepTokens printTokens) forTokens := by
    repeat first | exact .nil | refine .cons rfl ?_
  have expansion :
      Spells Eq (expansionWords startTokens [firstLine "a"] stepTokens printTokens) handTokens := by
    repeat first | exact .nil | refine .cons rfl ?_
  obtain ⟨tree, other, _, _, parsed, _, parsed', _, _, _, runs⟩ :=
    @alike_of_expansion _ _ _ _ _ _ _ _ _ _ (.ending 1) (.ending 1) initial tested step body loop
      expansion rfl rfl 1 1
  cases parsed.symm.trans one
  cases parsed'.symm.trans two
  have alike := runs .here [] [] (.empty "main") (discreet_empty "main") read read' rfl rfl
  exact ⟨initial, tested, step, body, loop, expansion, read, read', alike⟩

end Session

end LoxMachine
