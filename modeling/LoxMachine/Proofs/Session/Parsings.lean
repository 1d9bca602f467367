import LoxMachine.Machine.Session
import LoxMachine.Proofs.Grammar.Builds
import LoxMachine.Proofs.Scope.Resolves

namespace LoxMachine

/-- What came of a reading, and the counter before and after it. -/
structure Parsing where
  first : NodeId
  result : Except SyntaxError (List Stmt)
  next : NodeId

/-- Token lists read one after another. Each reading goes on where the counter stands, also behind
one that failed. -/
def parsings : NodeId → List (List Token) → List Parsing
  | _, [] => []
  | first, tokens :: inputs =>
    let (result, stop) := parse first tokens
    ⟨first, result, stop.nextId⟩ :: parsings stop.nextId inputs

def programsOf (all : List Parsing) : List (List Stmt) := all.filterMap (·.result.toOption)

/-- The distances that are known when a program has come in, which adds none if it breaks a static
rule. -/
def merge (known : Distances) (program : List Stmt) : Distances :=
  match distancesOf program with
  | .ok distances => distances ++ known
  | .error _ => known

/-- The numbers of the nodes in readings, and the distances recorded under them. -/
structure KeptApart (all : List Parsing) : Prop where
  numbered : ∀ p ∈ all, ∀ program, p.result = .ok program →
    Numbered p.first p.next (stmtsIds program)
  ranked : ∀ p ∈ all, ∀ program, p.result = .ok program → StmtsRanked program
  apart : (programsOf all).Pairwise fun early late => ∀ id ∈ stmtsIds early, id ∉ stmtsIds late
  kept : ∀ early late, programsOf all = early ++ late →
    ∀ merged ⊆ late, ∀ program ∈ early, ∀ id ∈ stmtsIds program, ∀ known,
      (merged.foldl merge known).lookup id = known.lookup id

variable {first : NodeId} {inputs : List (List Token)} {p : Parsing} {program : List Stmt}
  {all : List Parsing} {known : Distances} {id : NodeId}

theorem lookup_merge (foreign : id ∉ stmtsIds program) :
    (merge known program).lookup id = known.lookup id := by
  have absent : id ∉ Static.nodeIds (occurrencesOf program) := by
    intro inside
    have counted := Nat.lt_of_lt_of_le (List.count_pos_iff.mpr inside) (Static.count_stmts [] id program)
    exact foreign (List.count_pos_iff.mp counted)
  unfold merge
  cases accepted : distancesOf program with
  | ok distances =>
    show (distances ++ known).lookup id = known.lookup id
    rw [List.lookup_append, Static.lookup_foreign accepted absent, Option.none_or]
  | error => rfl

theorem lookup_merged {programs : List (List Stmt)} (foreign : ∀ other ∈ programs, id ∉ stmtsIds other) :
    (programs.foldl merge known).lookup id = known.lookup id := by
  induction programs generalizing known with
  | nil => rfl
  | cons program rest ih =>
    obtain ⟨here, later⟩ := List.forall_mem_cons.mp foreign
    rw [List.foldl_cons, ih later, lookup_merge here]

theorem Session.distances_of_run (s : Session) (limits : Limits) (source : String) :
    (s.run limits source).1.distances =
      match (s.read source).2 with
      | .ok program => merge s.distances program
      | .error _ => s.distances := by
  have kept : (s.read source).1.distances = s.distances := by
    unfold Session.read
    split <;> rfl
  unfold Session.run merge
  cases read : s.read source with
  | mk t outcome =>
    rw [read] at kept
    cases outcome with
    | error => exact kept
    | ok program =>
      dsimp only at kept ⊢
      cases distancesOf program with
      | error => exact kept
      | ok distances =>
        show distances ++ t.distances = distances ++ s.distances
        rw [kept]

theorem mem_parsings (member : p ∈ parsings first inputs) :
    first ≤ p.first ∧ ∃ tokens stop, parse p.first tokens = (p.result, stop) ∧ p.next = stop.nextId := by
  induction inputs generalizing first with
  | nil => cases member
  | cons tokens rest ih =>
    rcases List.mem_cons.mp member with rfl | later
    · exact ⟨Nat.le_refl first, tokens, _, rfl, rfl⟩
    · obtain ⟨above, reading⟩ := ih later
      exact ⟨Nat.le_trans (nextId_of_parse first tokens) above, reading⟩

theorem parsings_ordered (first : NodeId) (inputs : List (List Token)) :
    (parsings first inputs).Pairwise fun early late => early.next ≤ late.first := by
  induction inputs generalizing first with
  | nil => exact .nil
  | cons tokens rest ih =>
    refine List.pairwise_cons.mpr ⟨fun late member => ?_, ih _⟩
    exact (mem_parsings member).1

theorem grown_of_parsing (member : p ∈ parsings first inputs) (result : p.result = .ok program) :
    StmtsGrown False p.first p.next program := by
  obtain ⟨-, tokens, stop, parsed, next⟩ := mem_parsings member
  rw [result] at parsed
  have grown := grown_of_parse parsed
  rw [next]
  exact ⟨grown.numbered, grown.ranked, False.elim⟩

theorem ok_of_came (came : p.result.toOption = some program) : p.result = .ok program := by
  cases result : p.result with
  | ok =>
    rw [result] at came
    cases came
    rfl
  | error =>
    rw [result] at came
    cases came

theorem parsings_apart (first : NodeId) (inputs : List (List Token)) :
    (programsOf (parsings first inputs)).Pairwise
      fun early late => ∀ id ∈ stmtsIds early, id ∉ stmtsIds late := by
  apply List.pairwise_filterMap.mpr
  apply (parsings_ordered first inputs).imp_of_mem
  intro one other before after ordered early came late came' id mine theirs
  have below := (grown_of_parsing before (ok_of_came came)).numbered.2.2 id mine
  have above := (grown_of_parsing after (ok_of_came came')).numbered.2.2 id theirs
  exact Nat.lt_irrefl id (Nat.lt_of_lt_of_le below.2 (Nat.le_trans ordered above.1))

/-- Whatever token lists are read one after another, and wherever the counter stands: the nodes of a
program have numbers of their own, from those that the counter passed, each a greater one than the
nodes in it. No two programs share a number, and the distances of later ones change nothing that was
recorded for the nodes of an earlier one. -/
theorem kept_apart_of_parsings (first : NodeId) (inputs : List (List Token)) :
    KeptApart (parsings first inputs) where
  numbered _ member _ result := (grown_of_parsing member result).numbered
  ranked _ member _ result := (grown_of_parsing member result).ranked
  apart := parsings_apart first inputs
  kept early late split merged fewer program member id mine known := by
    have apart := parsings_apart first inputs
    rw [split, List.pairwise_append] at apart
    exact lookup_merged fun other among => apart.2.2 program member other (fewer among) id mine

/-- Of `a =` nothing comes but a number that is used up. In `for (;;) a.b = a;` the number of the read
property is dropped with its node, and the condition gets one after the body. -/
example :
    let a : Token := ⟨.identifier, "a", 1⟩
    let sign (s : Symbol) : Token := ⟨.symbol s, s.spelling, 1⟩
    let loop := [⟨.keyword .forWord, "for", 1⟩, sign .leftParen, sign .semicolon, sign .semicolon,
      sign .rightParen, a, sign .dot, a, sign .equal, a, sign .semicolon, .ending 1]
    let all := parsings 7 [[a, sign .equal, .ending 1], loop]
    all.map (fun p => (p.first, p.next)) = [(7, 8), (8, 15)] ∧
      (programsOf all).map stmtsIds = [[13, 10, 8, 11, 12, 14]] := by
  decide

end LoxMachine
