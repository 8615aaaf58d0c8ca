import LineCalc.Proofs.Token.Step
import Mathlib.Data.List.Forall2
/-!
# LineCalc.Proofs.Token.Consumption

**Where the bytes go** when a lexer is called again and again, whatever it
answers.

`Lexer.Consumes` says which bytes a call may move past, given its answer: blanks,
and then the literal, the symbol or the sign that the answer is about. One call
moves past such bytes and past nothing else (`Lexer.Step.exists_consumed`), so the
bytes behind a lexer are those that its calls have consumed, in the order of the
calls.
-/

namespace LineCalc.Lexer

/-- The answer of a call, and the place at which it leaves the lexer. -/
abbrev Call := Except ParseError Token × Lexer

/-- `Consumes answer text`: a call that answers `answer` may have moved past `text`. -/
inductive Consumes : Except ParseError Token → Bytes → Prop
  | atEnd {blanks : Bytes} (hblanks : blanks.all Byte.isBlank) :
    Consumes (.ok .endOfInput) blanks
  | number {blanks : Bytes} (hblanks : blanks.all Byte.isBlank) (literal : Literal) :
    Consumes (.ok (.number literal.number)) (blanks ++ literal.text)
  | operator {blanks : Bytes} (hblanks : blanks.all Byte.isBlank) (op : Op) :
    Consumes (.ok (.operator op)) (blanks ++ [op.symbol])
  | detachedSign {blanks : Bytes} (hblanks : blanks.all Byte.isBlank) (s : Sign) (p : Nat) :
    Consumes (.error (.expectedDigits p)) (blanks ++ [s.symbol])
  | noOperand {blanks : Bytes} (hblanks : blanks.all Byte.isBlank) (p : Nat) :
    Consumes (.error (.expectedNumber p)) blanks
  | noOperator {blanks : Bytes} (hblanks : blanks.all Byte.isBlank) (b : UInt8) (p : Nat) :
    Consumes (.error (.unexpectedByte b p)) blanks

/-! ### One call -/

/-- A call moves past bytes that its answer accounts for, and its position past as
many. -/
theorem Step.exists_consumed {l l' : Lexer} {answer : Except ParseError Token}
    (h : Step l answer l') : ∃ text, Consumes answer text ∧ l.rest = text ++ l'.rest ∧
      l'.position = l.position + text.length := by
  cases h with
  | atEnd hblanks p expecting => exact ⟨_, .atEnd hblanks, (List.append_nil _).symm, rfl⟩
  | number hblanks literal rest hstops p =>
    refine ⟨_, .number hblanks literal, (List.append_assoc _ _ _).symm, ?_⟩
    rw [List.length_append, Nat.add_assoc]
  | operator hblanks op rest p =>
    refine ⟨_, .operator hblanks op, (List.append_cons _ _ _), ?_⟩
    rw [List.length_append, List.length_singleton, Nat.add_assoc]
  | detachedSign hblanks s rest hrest p =>
    refine ⟨_, .detachedSign hblanks s _, (List.append_cons _ _ _), ?_⟩
    rw [List.length_append, List.length_singleton, Nat.add_assoc]
  | noOperand hblanks b hblank hdigit hsign rest p => exact ⟨_, .noOperand hblanks _, rfl, rfl⟩
  | noOperator hblanks b hblank hop rest p => exact ⟨_, .noOperator hblanks b _, rfl, rfl⟩

/-- The end is answered where nothing is left. -/
theorem Step.rest_of_end {l l' : Lexer} (h : Step l (.ok .endOfInput) l') : l'.rest = [] := by
  cases h
  rfl

/-! ### Any number of calls -/

theorem calls_succ (l : Lexer) (n : Nat) : l.calls (n + 1) = l.next :: l.next.2.calls n := rfl

/-- Every call is a step from some place. -/
theorem exists_step_of_mem_calls {l : Lexer} {n : Nat} {call : Call} (h : call ∈ l.calls n) :
    ∃ l', Step l' call.1 call.2 := by
  induction n generalizing l with
  | zero => cases h
  | succ n ih =>
    rw [calls_succ, List.mem_cons] at h
    rcases h with rfl | h
    · exact ⟨l, l.step_next⟩
    · exact ih h

/-- The calls from `l` on move past `texts`, one text each. -/
theorem exists_consumed_of_calls (l : Lexer) (n : Nat) : ∃ texts : List Bytes,
    List.Forall₂ (fun call text => Consumes call.1 text) (l.calls n) texts ∧
      ∀ k call, (l.calls n)[k]? = some call →
        l.rest = (texts.take (k + 1)).flatten ++ call.2.rest ∧
          call.2.position = l.position + (texts.take (k + 1)).flatten.length := by
  induction n generalizing l with
  | zero => exact ⟨[], .nil, fun k call h => absurd h (by simp [calls])⟩
  | succ n ih =>
    obtain ⟨text, hconsumes, hrest, hposition⟩ := l.step_next.exists_consumed
    obtain ⟨texts, htexts, hplaces⟩ := ih l.next.2
    refine ⟨text :: texts, .cons hconsumes htexts, ?_⟩
    intro k call hcall
    cases k with
    | zero =>
      obtain rfl : l.next = call := Option.some.inj hcall
      simpa using ⟨hrest, hposition⟩
    | succ k =>
      obtain ⟨hrest', hposition'⟩ := hplaces k call hcall
      rw [List.take_succ_cons, List.flatten_cons, List.length_append]
      refine ⟨?_, by omega⟩
      rw [hrest, hrest', List.append_assoc]

/-- No call moves back. -/
theorem isChain_position_calls (l : Lexer) (n : Nat) :
    List.IsChain (· ≤ ·) (l.position :: (l.calls n).map fun call => call.2.position) := by
  induction n generalizing l with
  | zero => exact .singleton _
  | succ n ih =>
    obtain ⟨text, -, -, hposition⟩ := l.step_next.exists_consumed
    have hle : l.position ≤ l.next.2.position := by omega
    exact .cons_cons hle (ih l.next.2)

/-- **No byte is lost and none is read twice**, however often a lexer is called and
whatever it answers: the bytes in front of its position are those that its calls
have consumed. The position never moves back and never leaves the line, and the
end is answered at the end of the line only. -/
theorem calls_account_for_line (line : Bytes) (n : Nat) : ∃ texts : List Bytes,
    List.Forall₂ (fun call text => Consumes call.1 text) ((start line).calls n) texts ∧
    (∀ k call, ((start line).calls n)[k]? = some call →
      line.take call.2.position = (texts.take (k + 1)).flatten ∧
      call.2.position ≤ line.length ∧
      (call.1 = .ok .endOfInput → call.2.position = line.length)) ∧
    List.IsChain (· ≤ ·) (0 :: ((start line).calls n).map fun call => call.2.position) := by
  obtain ⟨texts, htexts, hplaces⟩ := (start line).exists_consumed_of_calls n
  refine ⟨texts, htexts, ?_, (start line).isChain_position_calls n⟩
  intro k call hcall
  obtain ⟨hline, hposition⟩ := hplaces k call hcall
  replace hline : line = (texts.take (k + 1)).flatten ++ call.2.rest := hline
  replace hposition : call.2.position = (texts.take (k + 1)).flatten.length := by
    rw [hposition, start, Nat.zero_add]
  have hlength := congrArg List.length hline
  rw [List.length_append] at hlength
  refine ⟨?_, by omega, ?_⟩
  · rw [hposition]
    conv_lhs => rw [hline]
    exact List.take_left
  · intro hend
    obtain ⟨l', hstep⟩ := exists_step_of_mem_calls (List.mem_of_getElem? hcall)
    rw [hend] at hstep
    rw [hstep.rest_of_end, List.length_nil] at hlength
    omega

/-- A sign that stands alone is passed by, the next call goes on behind it, and at
the end nothing moves any more. -/
example : ((start (Bytes.ofString "- 3")).calls 3).map (fun call => call.2.position)
    = [1, 3, 3] := by decide

end LineCalc.Lexer
