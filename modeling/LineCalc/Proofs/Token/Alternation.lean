import LineCalc.Proofs.Token.Consumption
/-!
# LineCalc.Proofs.Token.Alternation

**Numbers and operators take turns** in what a lexer gives, however often it is called and
whatever else it answers in between.

A token is of the kind that was expected, and the other kind is expected behind it
(`Lexer.Step.metBy`); the end and a mistake leave the expectation alone
(`Lexer.Step.expecting_eq`), also where bytes have been passed by. So what is expected after any
number of calls can be told from the number of tokens that these have given, and each of the
tokens was expected at its place (`Lexer.takeTurns_calls`).
-/

namespace LineCalc

namespace Expecting

/-- The kind that takes turns with this one. -/
def other : Expecting → Expecting
  | operand => operator
  | operator => operand

@[simp] theorem other_other (e : Expecting) : e.other.other = e := by cases e <;> rfl

/-- The kind at place `i` where the two kinds take turns and `e` comes first. -/
def turn (e : Expecting) (i : Nat) : Expecting := if i % 2 = 0 then e else e.other

theorem turn_succ (e : Expecting) (i : Nat) : e.turn (i + 1) = e.other.turn i := by
  unfold turn
  by_cases h : i % 2 = 0
  · rw [if_neg (by omega), if_pos h]
  · rw [if_pos (by omega), if_neg h, other_other]

/-- `MetBy e t`: the token `t` is of the kind `e`. -/
inductive MetBy : Expecting → Token → Prop
  | number (x : Number) : MetBy operand (.number x)
  | operator (op : Op) : MetBy operator (.operator op)

/-- The tokens take turns, and the first of them is of the kind `e`. -/
def TakeTurns (e : Expecting) (ts : List Token) : Prop :=
  ∀ i t, ts[i]? = some t → (e.turn i).MetBy t

theorem TakeTurns.nil (e : Expecting) : TakeTurns e [] := nofun

theorem TakeTurns.cons {e : Expecting} {t : Token} {ts : List Token} (ht : e.MetBy t)
    (hts : TakeTurns e.other ts) : TakeTurns e (t :: ts) := by
  intro i u hu
  cases i with
  | zero =>
    obtain rfl := Option.some.inj hu
    exact ht
  | succ i =>
    rw [turn_succ]
    exact hts i u hu

end Expecting

namespace Lexer

/-! ### One call -/

/-- The token that an answer gives. The end mark is none. -/
def token? : Except ParseError Token → Option Token
  | .ok .endOfInput => none
  | .ok t => some t
  | .error _ => none

theorem token?_eq_none_iff {answer : Except ParseError Token} :
    token? answer = none ↔ answer = .ok .endOfInput ∨ ∃ e, answer = .error e := by
  cases answer with
  | error e => simp [token?]
  | ok t => cases t <;> simp [token?]

/-- The end and a mistake change nothing in what is expected. -/
theorem Step.expecting_eq {l l' : Lexer} {answer : Except ParseError Token}
    (h : Step l answer l') (hnone : token? answer = none) : l'.expecting = l.expecting := by
  cases h with
  | atEnd => rfl
  | detachedSign => rfl
  | noOperand => rfl
  | noOperator => rfl
  | number => cases hnone
  | operator => cases hnone

/-- A token is what was expected, and the other kind is expected next. -/
theorem Step.metBy {l l' : Lexer} {answer : Except ParseError Token} {t : Token}
    (h : Step l answer l') (ht : token? answer = some t) :
    l.expecting.MetBy t ∧ l'.expecting = l.expecting.other := by
  cases h with
  | number _ literal =>
    obtain rfl := Option.some.inj ht
    exact ⟨.number literal.number, rfl⟩
  | operator _ op =>
    obtain rfl := Option.some.inj ht
    exact ⟨.operator op, rfl⟩
  | atEnd => cases ht
  | detachedSign => cases ht
  | noOperand => cases ht
  | noOperator => cases ht

/-! ### Any number of calls -/

/-- The place at which `n` calls leave the lexer. -/
def after (l : Lexer) : Nat → Lexer
  | 0 => l
  | n + 1 => after l.next.2 n

/-- Each call is made where the calls before it have left the lexer. -/
theorem eq_next_of_getElem?_calls {l : Lexer} {n k : Nat} {call : Call}
    (h : (l.calls n)[k]? = some call) : (l.after k).next = call := by
  induction n generalizing l k with
  | zero => cases h
  | succ n ih =>
    cases k with
    | zero => exact Option.some.inj h
    | succ k =>
      rw [calls_succ, List.getElem?_cons_succ] at h
      rw [← ih h, after]

/-- The tokens that calls have given, in their order. -/
def given (calls : List Call) : List Token := calls.filterMap fun call => token? call.1

/-- The tokens of any calls take turns, and the next one is to be of the kind whose turn it is. -/
theorem takeTurns_calls (l : Lexer) (n : Nat) :
    Expecting.TakeTurns l.expecting (given (l.calls n)) ∧
      (l.after n).expecting = l.expecting.turn (given (l.calls n)).length := by
  induction n generalizing l with
  | zero => exact ⟨.nil _, rfl⟩
  | succ n ih =>
    obtain ⟨hturns, hafter⟩ := ih l.next.2
    cases htoken : token? l.next.1 with
    | none =>
      have hgiven : given (l.calls (n + 1)) = given (l.next.2.calls n) :=
        List.filterMap_cons_none htoken
      rw [l.step_next.expecting_eq htoken] at hturns hafter
      rw [hgiven]
      exact ⟨hturns, hafter⟩
    | some t =>
      have hgiven : given (l.calls (n + 1)) = t :: given (l.next.2.calls n) :=
        List.filterMap_cons_some htoken
      obtain ⟨hmet, hother⟩ := l.step_next.metBy htoken
      rw [hother] at hturns hafter
      rw [hgiven, List.length_cons, Expecting.turn_succ]
      exact ⟨hturns.cons hmet, hafter⟩

/-- **The tokens of a lexer alternate**, a number first, over any number of calls and whatever
else these answer. A call that answers the end or a mistake leaves unchanged whether a number or
an operator is next, and which of them it is depends on the number of tokens given so far. -/
theorem tokens_alternate (line : Bytes) (n : Nat) :
    (∀ i t, (given ((start line).calls n))[i]? = some t →
      (i % 2 = 0 → ∃ x, t = .number x) ∧ (i % 2 = 1 → ∃ op, t = .operator op)) ∧
    (∀ k call, ((start line).calls n)[k]? = some call →
      (call.1 = .ok .endOfInput ∨ ∃ e, call.1 = .error e) →
      call.2.expecting = ((start line).after k).expecting) ∧
    ((start line).after n).expecting
      = if (given ((start line).calls n)).length % 2 = 0 then .operand else .operator := by
  obtain ⟨hturns, hafter⟩ := (start line).takeTurns_calls n
  refine ⟨?_, ?_, hafter⟩
  · intro i t ht
    have hmet : (Expecting.operand.turn i).MetBy t := hturns i t ht
    unfold Expecting.turn at hmet
    constructor
    · intro heven
      rw [if_pos heven] at hmet
      cases hmet with
      | number x => exact ⟨x, rfl⟩
    · intro hodd
      rw [if_neg (by omega)] at hmet
      cases hmet with
      | operator op => exact ⟨op, rfl⟩
  · intro k call hcall hnothing
    obtain rfl := eq_next_of_getElem?_calls hcall
    exact ((start line).after k).step_next.expecting_eq (token?_eq_none_iff.mpr hnothing)

/-- Two signs that stand alone and a letter, and still one operand lies behind. -/
example : ((start (Bytes.ofString "- + 3 x")).after 5).expecting = .operator := by decide

end Lexer

end LineCalc
