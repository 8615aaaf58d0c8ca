import LineCalc.Proofs.Token.Consumption
/-!
# LineCalc.Proofs.Token.Settling

A lexer that is called again and again **settles**.

An answer is passing or final. A passing one, a token or a sign that stands alone, leaves
at least one byte behind that is not blank, so there are no more of them than there are
such bytes (`Step.passes`). A final one, the end or a byte that goes with nothing, leaves the
lexer where it gives the same answer again, without moving (`Step.again`). The calls are
therefore passing ones, and after them one final call over and over (`exists_settles`).
-/

namespace LineCalc.Lexer

/-! ### Two kinds of answers -/

/-- The answers that a lexer moves on with. -/
inductive Passing : Except ParseError Token → Prop
  | token {t : Token} (ht : t.isEnd = false) : Passing (.ok t)
  | detachedSign (p : Nat) : Passing (.error (.expectedDigits p))

/-- The answers that a lexer stays with. -/
inductive Final : Except ParseError Token → Prop
  | atEnd : Final (.ok .endOfInput)
  | noOperand (p : Nat) : Final (.error (.expectedNumber p))
  | noOperator (b : UInt8) (p : Nat) : Final (.error (.unexpectedByte b p))

theorem Step.passing_or_final {l l' : Lexer} {answer : Except ParseError Token}
    (h : Step l answer l') : Passing answer ∨ Final answer := by
  cases h with
  | atEnd => exact .inr .atEnd
  | number => exact .inl (.token rfl)
  | operator => exact .inl (.token rfl)
  | detachedSign => exact .inl (.detachedSign _)
  | noOperand => exact .inr (.noOperand _)
  | noOperator => exact .inr (.noOperator _ _)

/-- A final answer is given again, and the lexer stays where it is. -/
theorem Step.again {l l' : Lexer} {answer : Except ParseError Token} (h : Step l answer l')
    (hfinal : Final answer) : l'.next = (answer, l') := by
  have hnothing : ([] : Bytes).all Byte.isBlank := rfl
  refine Step.next_eq ?_
  cases h with
  | atEnd => exact .atEnd hnothing _ _
  | noOperand _ b hblank hdigit hsign rest => exact .noOperand hnothing b hblank hdigit hsign rest _
  | noOperator _ b hblank hop rest => exact .noOperator hnothing b hblank hop rest _
  | number => cases hfinal
  | operator => cases hfinal
  | detachedSign => cases hfinal

/-! ### Moving on -/

/-- How many bytes of a text are not blank. -/
def nonblanks (text : Bytes) : Nat := text.countP fun b => !Byte.isBlank b

/-- From `l` to `l'` the lexer has moved past some text, not all of it blank. -/
def Passes (l l' : Lexer) : Prop :=
  ∃ text, l.rest = text ++ l'.rest ∧ l'.position = l.position + text.length ∧
    ∃ b ∈ text, Byte.isBlank b = false

theorem Passes.nonblanks_lt {l l' : Lexer} (h : Passes l l') :
    nonblanks l'.rest < nonblanks l.rest := by
  obtain ⟨text, hrest, -, b, hb, hblank⟩ := h
  have hpos : 0 < nonblanks text := List.countP_pos_iff.mpr ⟨b, hb, by rw [hblank]; rfl⟩
  have hsum : nonblanks l.rest = nonblanks text + nonblanks l'.rest := by
    rw [hrest]
    exact List.countP_append
  omega

theorem Consumes.exists_nonblank {answer : Except ParseError Token} {text : Bytes}
    (h : Consumes answer text) (hpassing : Passing answer) :
    ∃ b ∈ text, Byte.isBlank b = false := by
  cases h with
  | number hblanks literal =>
    have hahead := literal.noBlankAhead_text_append []
    rw [List.append_nil] at hahead
    obtain ⟨b, more, htext⟩ := List.exists_cons_of_ne_nil literal.text_ne_nil
    refine ⟨b, ?_, hahead b (by rw [htext]; rfl)⟩
    rw [htext]
    exact List.mem_append_right _ List.mem_cons_self
  | operator hblanks op => exact ⟨op.symbol, List.mem_concat_self, op.isBlank_symbol⟩
  | detachedSign hblanks s => exact ⟨s.symbol, List.mem_concat_self, s.isBlank_symbol⟩
  | atEnd => cases hpassing with | token ht => cases ht
  | noOperand => cases hpassing
  | noOperator => cases hpassing

theorem Step.passes {l l' : Lexer} {answer : Except ParseError Token} (h : Step l answer l')
    (hpassing : Passing answer) : Passes l l' := by
  obtain ⟨text, hconsumes, hrest, hposition⟩ := h.exists_consumed
  exact ⟨text, hrest, hposition, hconsumes.exists_nonblank hpassing⟩

/-! ### Settling -/

/-- A call that leaves the lexer where it is answered in the same way is repeated. -/
theorem calls_eq_replicate {call : Call} (h : call.2.next = call) (n : Nat) :
    call.2.calls n = List.replicate n call := by
  induction n with
  | zero => rfl
  | succ n ih => rw [calls_succ, h, ih, List.replicate_succ]

/-- The first `k` calls from `l` on pass, and all calls after them are `last`. -/
structure Settles (l : Lexer) (k : Nat) (last : Call) : Prop where
  /-- There are no more passing calls than bytes to pass. -/
  le_nonblanks : k ≤ nonblanks l.rest
  /-- Each of the first calls moves past a byte that is not blank. -/
  passes : List.IsChain Passes (l :: (l.calls k).map Prod.snd)
  /-- It gives a token, or passes by a sign that stands alone. -/
  passing : ∀ call ∈ l.calls k, Passing call.1
  /-- The other calls give the end or a mistake. -/
  final : Final last.1
  /-- If it is the end, nothing is left to read. -/
  at_end : last.1 = .ok .endOfInput → last.2.position = l.position + l.rest.length
  /-- They are all the same, in answer and place. -/
  repeats : ∀ n, l.calls (k + n) = l.calls k ++ List.replicate n last

theorem settles_of_final {l : Lexer} (h : Final l.next.1) : Settles l 0 l.next where
  le_nonblanks := Nat.zero_le _
  passes := .singleton _
  passing := fun call hcall => absurd hcall List.not_mem_nil
  final := h
  at_end := by
    intro hend
    have hstep := l.step_next
    obtain ⟨text, -, hrest, hposition⟩ := hstep.exists_consumed
    rw [hend] at hstep
    rw [hposition, hrest, hstep.rest_of_end, List.append_nil]
  repeats := by
    intro n
    cases n with
    | zero => rfl
    | succ n =>
      rw [Nat.zero_add, calls_succ, calls_eq_replicate (l.step_next.again h)]
      rfl

theorem Settles.of_passing {l : Lexer} {k : Nat} {last : Call} (h : Settles l.next.2 k last)
    (hpassing : Passing l.next.1) : Settles l (k + 1) last where
  le_nonblanks := Nat.le_trans (Nat.succ_le_succ h.le_nonblanks)
    (l.step_next.passes hpassing).nonblanks_lt
  passes := .cons_cons (l.step_next.passes hpassing) h.passes
  passing := by
    intro call hcall
    rcases List.mem_cons.mp hcall with rfl | hcall
    · exact hpassing
    · exact h.passing call hcall
  final := h.final
  at_end := by
    intro hend
    obtain ⟨text, -, hrest, hposition⟩ := l.step_next.exists_consumed
    rw [h.at_end hend, hposition, hrest, List.length_append]
    omega
  repeats := by
    intro n
    rw [Nat.add_right_comm, calls_succ, h.repeats, calls_succ, List.cons_append]

/-- Every lexer settles. -/
theorem exists_settles (l : Lexer) : ∃ k last, Settles l k last := by
  induction hn : nonblanks l.rest using Nat.strongRecOn generalizing l with
  | ind n ih =>
    rcases l.step_next.passing_or_final with hpassing | hfinal
    · have hlt := (l.step_next.passes hpassing).nonblanks_lt
      obtain ⟨k, last, h⟩ := ih _ (hn ▸ hlt) l.next.2 rfl
      exact ⟨k + 1, last, h.of_passing hpassing⟩
    · exact ⟨0, l.next, settles_of_final hfinal⟩

/-- What stops a caller who waits for the end, or for a mistake to be repeated. -/
def Stops (calls : List Call) : Prop :=
  (∃ l, calls.getLast? = some (.ok .endOfInput, l)) ∨
    ∃ before e l, calls = before ++ [(.error e, l), (.error e, l)]

/-- **Calls settle**: the first calls, no more than there are bytes that are not blank, each
move past one of these bytes, and all others are the same call, which gives the end of the
line or one mistake. Only a sign that stands alone is ever recovered from, and who waits for
the end or for a mistake to be repeated is sure to stop. -/
theorem calls_settle (line : Bytes) :
    (∃ k last, Settles (start line) k last) ∧
    (∀ n, ∀ call ∈ (start line).calls n, ¬ Passing call.1 →
      ∀ m, call.2.calls m = List.replicate m call) ∧
    ∃ n, n ≤ nonblanks line + 2 ∧ Stops ((start line).calls n) := by
  obtain ⟨k, last, h⟩ := (start line).exists_settles
  refine ⟨⟨k, last, h⟩, ?_, k + 2, Nat.add_le_add_right h.le_nonblanks 2, ?_⟩
  · intro n call hcall hpassing m
    obtain ⟨l, hstep⟩ := exists_step_of_mem_calls hcall
    exact calls_eq_replicate (hstep.again (hstep.passing_or_final.resolve_left hpassing)) m
  · rw [h.repeats]
    obtain ⟨answer, l⟩ := last
    cases answer with
    | error e => exact .inr ⟨(start line).calls k, e, l, rfl⟩
    | ok t =>
      obtain ⟨⟩ : Final (.ok t) := h.final
      refine .inl ⟨l, ?_⟩
      rw [List.getLast?_append]
      rfl

/-- The sign is passed by, the number is read, and the letter is answered with a mistake for
good. -/
example : ((start (Bytes.ofString "+ 1 x")).calls 4).map (fun call => call.2.position)
    = [1, 3, 4, 4] := by decide

end LineCalc.Lexer
