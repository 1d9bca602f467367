import LoxMachine.Proofs.Grammar.Moved
import LoxMachine.Proofs.Grammar.Shifted
import LoxMachine.Proofs.Recode.Kept

namespace LoxMachine

namespace Reader

variable {α β : Type}

def Refuses (r : Reader α) : Prop :=
  ∀ c a c', c.current.kind = .keyword .elseWord → r c ≠ .ok a c'

theorem Refuses.bind {r : Reader α} {f : α → Reader β} (refuses : r.Refuses) :
    (r >>= f).Refuses := by
  intro c b c' here read
  obtain ⟨a, mid, before, _⟩ := bind_ok.mp read
  exact refuses c a mid here before

end Reader

namespace Grammar

open Reader

theorem refuses_primary (nested : Reader Expr) : (primary nested).Refuses := by
  intro c a c' here read
  unfold primary at read
  rw [Carries.current_eq] at read
  rw [here] at read
  cases read

theorem refuses_unary (nested : Reader Expr) : (unary nested).Refuses := by
  intro c a c' here read
  obtain ⟨operators, mid, before, after⟩ := bind_ok.mp read
  obtain ⟨items, stop, none, last⟩ := bind_ok.mp before
  have stays : repeatWhile isPrefixOperator (fun items => do return (← take) :: items) [] c =
      .ok [] c := by
    refine Carries.repeatUpTo_stop ?_
    unfold isPrefixOperator Token.isSymbol
    rw [here]
    rfl
  rw [stays] at none
  cases none
  cases last
  exact (refuses_primary nested).bind.bind _ _ _ here after

theorem refuses_operatorsOver {operand : Reader Expr} (refuses : operand.Refuses) :
    (operatorsOver operand).Refuses := by
  unfold operatorsOver
  induction tiers with
  | nil => exact refuses
  | cons tier rest ih => exact ih.bind

theorem refuses_expression : expression.Refuses :=
  fun c => (refuses_operatorsOver (refuses_unary fun c' => expressionWithin c.rest.length c')).bind c

theorem refuses_statementOver (declaration statement : Reader Stmt) :
    (statementOver declaration statement).Refuses := by
  intro c a c' here read
  unfold statementOver at read
  rw [Carries.current_eq, here] at read
  exact refuses_expression.bind c a c' here read

theorem refuses_declaration : declaration.Refuses := by
  intro c a c' here read
  change declarationOver (fun c' => declarationWithin c.rest.length c')
    (fun c' => statementWithin c.rest.length c') c = _ at read
  unfold declarationOver at read
  rw [Carries.current_eq, here] at read
  exact refuses_statementOver _ _ c a c' here read

def reading (n : Nat) (items : List Stmt) : Reader (List Stmt) :=
  repeatUpTo (!·.isEnding) (fun items => do return (← declaration) :: items) n items

theorem program_eq_ok {c stop : Cursor} {body : List Stmt} :
    program c = .ok body stop ↔
      ∃ items, reading c.rest.length [] c = .ok items stop ∧ body = items.reverse := by
  unfold program many
  rw [bind_ok]
  constructor
  · rintro ⟨items, _, read, ⟨⟩⟩
    exact ⟨items, read, rfl⟩
  · rintro ⟨items, read, rfl⟩
    exact ⟨items, stop, read, rfl⟩

theorem parse_eq_ok {i : NodeId} {tokens : List Token} {body : List Stmt} {stop : Cursor} :
    parse i tokens = (.ok body, stop) ↔
      ∃ items, reading tokens.length [] ⟨tokens, i⟩ = .ok items stop ∧ body = items.reverse := by
  have read := @program_eq_ok ⟨tokens, i⟩ stop body
  rw [← read]
  unfold parse
  cases program ⟨tokens, i⟩ with
  | ok found c => exact ⟨by rintro ⟨⟩; rfl, by rintro ⟨⟩; rfl⟩
  | error e c => exact ⟨nofun, nofun⟩

theorem inside_kindly : KindTest (!·.isEnding) :=
  .ofKind (fun kind => !(kind == .endOfInput)) rfl

/-- The statements of a program are read elsewhere as well, behind other ones and with anything after
them but the word `else`. -/
theorem reading_prefix (lines k : Nat) (before : List Stmt) {n : Nat} {items items' : List Stmt}
    {c stop : Cursor} (enough : c.rest.length ≤ n) (read : reading n items c = .ok items' stop) :
    ∃ taken, c.rest = taken ++ stop.rest ∧ (∀ t ∈ taken, t.isEnding = false) ∧
      (!stop.current.isEnding) = false ∧
      ∀ other, stop.rest.length ≤ other.length → Loose stop.current (headOf other) →
        ∀ m, taken.length ≤ m → ∃ left, m ≤ left + taken.length ∧
          reading m (items.map (·.moved lines k) ++ before)
              ⟨taken.map (Token.later lines) ++ other, c.nextId + k⟩ =
            reading left (items'.map (·.moved lines k) ++ before) ⟨other, stop.nextId + k⟩ := by
  refine Carries.repeatUpTo_prefix (fun items => items.map (·.moved lines k) ++ before)
    later_kind inside_kindly (fun items => do return (← declaration) :: items) later_loose
    (fun items => ?_) enough read
  exact carries_declaration.map (fun _ => rfl) later_loose

theorem not_else_of_parse {i : NodeId} {tokens : List Token} {body : List Stmt} {stop : Cursor}
    (read : parse i tokens = (.ok body, stop)) :
    (headOf tokens).isKeyword .elseWord = false := by
  obtain ⟨items, read, _⟩ := parse_eq_ok.mp read
  cases starts : (headOf tokens).isKeyword .elseWord with
  | false => rfl
  | true =>
    have kind : (headOf tokens).kind = .keyword .elseWord := eq_of_beq starts
    cases tokens with
    | nil => cases starts
    | cons t rest =>
      have inside : (!(Cursor.current ⟨t :: rest, i⟩).isEnding) = true := by
        change (!(t.kind == .endOfInput)) = true
        rw [show t.kind = .keyword .elseWord from kind]
        rfl
      rw [reading, List.length_cons, Carries.repeatUpTo_go inside] at read
      exact absurd read (refuses_declaration.bind.bind _ _ _ kind)

theorem not_else_of_ending {t : Token} (ending : t.isEnding = true) :
    t.isKeyword .elseWord = false := by
  have kind : t.kind = .endOfInput := eq_of_beq ending
  unfold Token.isKeyword
  rw [kind]
  rfl

theorem reading_stop {n : Nat} {items : List Stmt} {c : Cursor} (ended : c.current.isEnding = true) :
    reading n items c = .ok items c := by
  refine Carries.repeatUpTo_stop ?_
  rw [ended]
  rfl

theorem parse_elsewhere {i : NodeId} {tokens : List Token} {body : List Stmt} {stop : Cursor}
    (parsed : parse i tokens = (.ok body, stop)) (lines k : Nat) :
    ∃ taken, tokens = taken ++ stop.rest ∧ (∀ t ∈ taken, t.isEnding = false) ∧
      stop.current.isEnding = true ∧
      ∀ other, stop.rest.length ≤ other.length → (headOf other).isKeyword .elseWord = false →
        ∀ before m, taken.length ≤ m → ∃ left, m ≤ left + taken.length ∧
          reading m before ⟨taken.map (Token.later lines) ++ other, i + k⟩ =
            reading left ((body.map (·.moved lines k)).reverse ++ before)
              ⟨other, stop.nextId + k⟩ := by
  obtain ⟨items, read, reversed⟩ := parse_eq_ok.mp parsed
  obtain ⟨taken, split, open_taken, stops, _⟩ :=
    reading_prefix lines k [] (c := ⟨tokens, i⟩) (Nat.le_refl _) read
  have ended : stop.current.isEnding = true := by simpa using stops
  refine ⟨taken, split, open_taken, ended, fun other long other_word before m enough => ?_⟩
  obtain ⟨taken', split', _, _, elsewhere⟩ :=
    reading_prefix lines k before (c := ⟨tokens, i⟩) (Nat.le_refl _) read
  obtain rfl : taken' = taken := List.append_cancel_right (split'.symm.trans split)
  have alike : Loose stop.current (headOf other) := by
    unfold Loose
    rw [not_else_of_ending ended, other_word]
  obtain ⟨left, least, same⟩ := elsewhere other long alike m enough
  refine ⟨left, least, ?_⟩
  rw [reversed, List.map_reverse, List.reverse_reverse]
  exact same

theorem moved_renumber (k : Nat) (body : List Stmt) :
    body.map (·.moved 0 k) = stmtsRenumber k body := by
  rw [← stmts_moved]
  exact stmtsRecode_still _

theorem moved_later (lines : Nat) (body : List Stmt) :
    body.map (·.moved lines 0) = stmtsRecode (.later lines) body := by
  rw [← stmts_moved, stmtsRenumber_zero]

theorem moved_still (body : List Stmt) : body.map (·.moved 0 0) = body := by
  rw [moved_renumber, stmtsRenumber_zero]

theorem tokens_still (tokens : List Token) : tokens.map (Token.later 0) = tokens := List.map_id' tokens

theorem parse_renumber {i : NodeId} {tokens : List Token} {body : List Stmt} {stop : Cursor}
    (parsed : parse i tokens = (.ok body, stop)) (k : Nat) :
    parse (i + k) tokens = (.ok (stmtsRenumber k body), ⟨stop.rest, stop.nextId + k⟩) := by
  rw [parse_shift, parsed, stmtsRenumber_eq_rename]
  rfl

/-- The words of a program, whose closing token is left over. -/
theorem taken_of_words {words taken : List Token} {ending : Token} {stop : Cursor}
    (split : words ++ [ending] = taken ++ stop.rest) (plain : ∀ t ∈ words, t.isEnding = false)
    (open_taken : ∀ t ∈ taken, t.isEnding = false) (closes : ending.isEnding = true)
    (ended : stop.current.isEnding = true) : taken = words ∧ stop.rest = [ending] := by
  rcases List.append_eq_append_iff.mp split with ⟨more, rfl, rest⟩ | ⟨more, rfl, rest⟩
  · cases more with
    | nil => exact ⟨List.append_nil _, rest.symm⟩
    | cons t others =>
      obtain ⟨rfl, _⟩ := List.cons.inj rest
      have absurdly := open_taken ending (List.mem_append_right _ List.mem_cons_self)
      exact absurd (closes.symm.trans absurdly) (by decide)
  · cases more with
    | nil => exact ⟨(List.append_nil _).symm, rest⟩
    | cons t others =>
      have first : stop.current = t := congrArg headOf rest
      have absurdly := plain t (List.mem_append_right _ List.mem_cons_self)
      rw [← first] at absurdly
      exact absurd (ended.symm.trans absurdly) (by decide)

theorem headOf_later (lines : Nat) (tokens : List Token) :
    (headOf (tokens.map (Token.later lines))).kind = (headOf tokens).kind := by
  cases tokens <;> rfl

/-- The tokens of two programs are read as the one program and then the other, whose tokens have
later lines. -/
theorem parse_join (lines : Nat) {i : Nat} {words tokens : List Token} {ending : Token}
    {body other : List Stmt} {stop stop' : Cursor} (plain : ∀ t ∈ words, t.isEnding = false)
    (closes : ending.isEnding = true) (one : parse i (words ++ [ending]) = (.ok body, stop))
    (two : parse stop.nextId tokens = (.ok other, stop')) (closed : tokens ≠ []) :
    parse i (words ++ tokens.map (Token.later lines)) =
      (.ok (body ++ stmtsRecode (.later lines) other),
        ⟨stop'.rest.map (Token.later lines), stop'.nextId⟩) := by
  obtain ⟨taken, split, open_taken, ended, elsewhere⟩ := parse_elsewhere one 0 0
  obtain ⟨rfl, rest⟩ := taken_of_words split plain open_taken closes ended
  obtain ⟨taken', split', _, ended', elsewhere'⟩ := parse_elsewhere two lines 0
  have word : (headOf (tokens.map (Token.later lines))).isKeyword .elseWord = false := by
    unfold Token.isKeyword
    rw [headOf_later]
    exact not_else_of_parse two
  have ending' : (headOf (stop'.rest.map (Token.later lines))).isEnding = true := by
    unfold Token.isEnding
    rw [headOf_later]
    exact ended'
  have closing : stop.rest.length ≤ (tokens.map (Token.later lines)).length := by
    rw [rest, List.length_map]
    exact List.length_pos_iff.mpr closed
  obtain ⟨left, least, same⟩ := elsewhere _ closing word []
    (taken ++ tokens.map (Token.later lines)).length (by simp)
  have enough : taken'.length ≤ left := by
    have lengths := congrArg List.length split'
    simp only [List.length_append, List.length_map] at lengths least
    omega
  obtain ⟨left', _, same'⟩ := elsewhere' (stop'.rest.map (Token.later lines)) (by simp)
    (not_else_of_ending ending') ((body.map (·.moved 0 0)).reverse ++ []) left enough
  rw [← List.map_append, ← split'] at same'
  rw [tokens_still] at same
  refine parse_eq_ok.mpr ⟨_, (same.trans same').trans (reading_stop ending'), ?_⟩
  rw [List.append_nil, List.reverse_append, List.reverse_reverse, List.reverse_reverse, moved_still,
    moved_later]

end Grammar

end LoxMachine
