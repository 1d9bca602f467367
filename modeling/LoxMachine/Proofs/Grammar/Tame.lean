import LoxMachine.Proofs.Grammar.Reads
import LoxMachine.Proofs.Grammar.Stuck

namespace LoxMachine

/-- Tokens up to the end of a program, in which every `=` stands behind `var` and a name. -/
inductive Tame : List Token → Prop where
  | ending {t : Token} (closes : t.isEnding = true) : Tame [t]
  | token {t : Token} {rest : List Token} (goes : t.isEnding = false)
    (plain : t.isSymbol .equal = false) (tame : Tame rest) : Tame (t :: rest)
  | initialized {word name sign : Token} {rest : List Token} (var : word.isKeyword .varWord = true)
    (named : name.kind = .identifier) (equals : sign.isSymbol .equal = true) (tame : Tame rest) :
    Tame (word :: name :: sign :: rest)

def Named (rest : List Token) : Prop :=
  Tame rest ∨ ∃ sign behind, rest = sign :: behind ∧ sign.isSymbol .equal = true ∧ Tame behind

def Led (rest : List Token) : Prop :=
  Tame rest ∨ ∃ name behind, rest = name :: behind ∧ Named behind

theorem Token.other_symbol {t : Token} {s s' : Symbol} (here : t.isSymbol s = true)
    (differ : s ≠ s') : t.isSymbol s' = false :=
  Token.not_symbol (eq_of_beq here) differ

namespace Tame

variable {t : Token} {rest : List Token}

theorem some_left (tame : Tame rest) : rest ≠ [] := by
  cases tame <;> exact List.cons_ne_nil _ _

theorem head (tame : Tame rest) : (headOf rest).isSymbol .equal = false := by
  cases tame with
  | ending closes => exact (Reader.KindTest.symbol .equal).ending _ closes
  | token _ plain _ => exact plain
  | initialized var _ _ _ =>
    refine beq_false_of_ne fun equal => ?_
    cases (eq_of_beq var).symm.trans equal

theorem tail (tame : Tame (t :: rest)) (goes : t.isEnding = false)
    (other : t.isKeyword .varWord = false) : Tame rest := by
  cases tame with
  | ending closes => cases goes.symm.trans closes
  | token _ _ tame => exact tame
  | initialized var => cases other.symm.trans var

theorem symbol {s : Symbol} (tame : Tame (t :: rest)) (here : t.isSymbol s = true) : Tame rest := by
  refine tame.tail ((Reader.KindTest.symbol s).goes t here) (beq_false_of_ne fun word => ?_)
  cases (eq_of_beq here).symm.trans word

theorem name (tame : Tame (t :: rest)) (here : t.kind = .identifier) : Tame rest := by
  refine tame.tail ?_ ?_
  all_goals
    refine beq_false_of_ne fun kind => ?_
    cases here.symm.trans kind

theorem led (tame : Tame (t :: rest)) (word : t.isKeyword .varWord = true) : Led rest := by
  cases tame with
  | ending closes => cases ((Reader.KindTest.word .varWord).ending t closes).symm.trans word
  | token _ _ tame => exact .inl tame
  | initialized _ _ equals tame => exact .inr ⟨_, _, rfl, .inr ⟨_, _, rfl, equals, tame⟩⟩

end Tame

namespace Named

variable {t : Token} {rest : List Token}

theorem value (named : Named (t :: rest)) (equals : t.isSymbol .equal = true) : Tame rest := by
  rcases named with tame | ⟨sign, behind, ⟨⟩, -, tame⟩
  · cases tame.head.symm.trans equals
  · exact tame

theorem plain (named : Named rest) (other : (headOf rest).isSymbol .equal = false) : Tame rest := by
  rcases named with tame | ⟨sign, behind, rfl, equals, -⟩
  · exact tame
  · cases other.symm.trans equals

end Named

namespace Led

variable {t : Token} {rest : List Token}

theorem some_left (led : Led rest) : rest ≠ [] := by
  rcases led with tame | ⟨name, behind, rfl, -⟩
  · exact tame.some_left
  · exact List.cons_ne_nil _ _

theorem named (led : Led (t :: rest)) (name : t.kind = .identifier) : Named rest := by
  rcases led with tame | ⟨_, behind, ⟨⟩, named⟩
  · exact .inl (tame.name name)
  · exact named

end Led

/-- In the tokens, `=` only stands directly behind the word `var` and a name. -/
def OnlyInitializers (tokens : List Token) : Prop :=
  ∀ before sign behind, tokens = before ++ sign :: behind → sign.isSymbol .equal = true →
    ∃ earlier word name, before = earlier ++ [word, name] ∧ word.isKeyword .varWord = true ∧
      name.kind = .identifier

theorem OnlyInitializers.tail {t : Token} {rest : List Token} (only : OnlyInitializers (t :: rest))
    (other : ∀ name behind, t.isKeyword .varWord = true → rest = name :: behind →
      (headOf behind).isSymbol .equal = false) : OnlyInitializers rest := by
  rintro before sign behind rfl equals
  obtain ⟨earlier, word, name, split, var, named⟩ := only (t :: before) sign behind rfl equals
  cases earlier with
  | nil =>
    cases split
    cases (other name (sign :: behind) var rfl).symm.trans equals
  | cons first earlier =>
    cases split
    exact ⟨earlier, word, name, rfl, var, named⟩

theorem OnlyInitializers.behind {word name sign : Token} {rest : List Token}
    (only : OnlyInitializers (word :: name :: sign :: rest)) (named : name.kind = .identifier)
    (equals : sign.isSymbol .equal = true) : OnlyInitializers rest := by
  have name_other : name.isKeyword .varWord = false := by
    refine beq_false_of_ne fun var => ?_
    cases named.symm.trans var
  have sign_other : sign.isKeyword .varWord = false := by
    refine beq_false_of_ne fun var => ?_
    cases (eq_of_beq equals).symm.trans var
  rintro before other behind rfl equals'
  obtain ⟨earlier, word', name', split, var, named'⟩ :=
    only (word :: name :: sign :: before) other behind rfl equals'
  match earlier, split with
  | [], split => cases split
  | [_], split =>
    cases split
    cases name_other.symm.trans var
  | [_, _], split =>
    cases split
    cases sign_other.symm.trans var
  | _ :: _ :: _ :: earlier, split =>
    cases split
    exact ⟨earlier, word', name', rfl, var, named'⟩

theorem tame_of_initializers {closing : Token} (closes : closing.isEnding = true) :
    ∀ {tokens : List Token}, Reader.Open tokens → OnlyInitializers (tokens ++ [closing]) →
      Tame (tokens ++ [closing])
  | [], _, _ => .ending closes
  | t :: rest, opens, only => by
    obtain ⟨goes, opens⟩ := List.forall_mem_cons.mp opens
    have plain : t.isSymbol .equal = false := by
      refine Bool.eq_false_iff.mpr fun equals => ?_
      obtain ⟨earlier, _, _, split, _⟩ := only [] t (rest ++ [closing]) rfl equals
      cases List.append_eq_nil_iff.mp split.symm |>.2
    by_cases initialized : ∃ name sign behind, t.isKeyword .varWord = true ∧
        rest = name :: sign :: behind ∧ sign.isSymbol .equal = true
    · obtain ⟨name, sign, behind, var, rfl, equals⟩ := initialized
      obtain ⟨-, opens⟩ := List.forall_mem_cons.mp opens
      obtain ⟨-, opens_behind⟩ := List.forall_mem_cons.mp opens
      obtain ⟨earlier, word, name', split, -, named⟩ :=
        only [t, name] sign (behind ++ [closing]) rfl equals
      have same : name' = name := by
        have last := congrArg (List.getLast? ·) split
        simpa using last.symm
      subst same
      exact .initialized var named equals
        (tame_of_initializers closes opens_behind (only.behind named equals))
    · refine .token goes plain (tame_of_initializers closes opens (only.tail ?_))
      intro name behind var split
      match rest, split with
      | [], split =>
        cases split
        rfl
      | [_], split =>
        cases split
        exact (Reader.KindTest.symbol .equal).ending closing closes
      | _ :: sign :: others, split =>
        cases split
        exact Bool.eq_false_iff.mpr fun equals => initialized ⟨_, sign, others, var, rfl, equals⟩

end LoxMachine
