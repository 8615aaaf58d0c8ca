import LineCalc.Proofs.Message
import LineCalc.Proofs.Token.Continuation
/-!
# LineCalc.Proofs.Token.Reach

**Where a line goes wrong.** The *reach* of a line is the longest beginning of it
that some accepted line starts with too. A refused line is reported at the end of
its reach, neither earlier nor later, and the reach alone decides in which words.

* `Mistake` lists what can be wrong with a line, each with the place in the line
  and the cause that is reported (`mistake_of_tokenize`);
* `IsReach.of_append` finds a reach: a beginning that can be extended, with a byte
  behind it that cannot be part of any extension;
* `message_at_reach` puts the two together.
-/

namespace LineCalc

open Bytes (ofString ofNat)

/-- A beginning with a sign at its end that is no operator. -/
def AfterSign (text : Bytes) : Prop :=
  ∃ (place : Bytes) (s : Sign), OperandPlace place ∧ text = place ++ [s.symbol]

/-- A beginning of an accepted line. -/
def Extendable (text : Bytes) : Prop := ∃ more, Accepted (text ++ more)

/-- `reach` is the longest beginning of `line` that can be extended to an accepted
line. -/
structure IsReach (line reach : Bytes) : Prop where
  begins : reach <+: line
  extendable : Extendable reach
  longest : ∀ text, text <+: line → Extendable text → text.length ≤ reach.length

/-- `message` is the message for a line whose longest beginning that can be extended
is `reach`. -/
structure MessageAtReach (line reach message : Bytes) : Prop where
  /-- The line could end here; a byte follows that goes with nothing. -/
  unexpected : Accepted reach → ∃ c rest, line = reach ++ c :: rest ∧
    message = if c = 0 then ofString "Unexpected character '"
      else ofString "Unexpected character '" ++ c ::
        (ofString "' at position " ++ ofNat reach.length)
  /-- A sign was the last that made sense. -/
  digits : AfterSign reach → message = ofString "Expected digits at position " ++ ofNat reach.length
  /-- The line ends behind an operator. -/
  dangling : ¬ Accepted reach → ¬ AfterSign reach → reach.length = line.length →
    ∃ ts op, (Lexer.start line).tokens = .ok (ts ++ [.operator op]) ∧
      message = ofString "Expected a number after '" ++ op.symbol ::
        (ofString "' at position " ++ ofNat reach.length)
  /-- In all other cases a number is missing. -/
  number : ¬ Accepted reach → ¬ AfterSign reach → reach.length ≠ line.length →
    message = ofString "Expected a number at position " ++ ofNat reach.length

/-! ### Errors and extensions -/

theorem not_accepted_of_error {line : Bytes} {e : ParseError} (h : tokenize line = .error e) :
    ¬ Accepted line := by
  rintro ⟨ts, hts⟩
  rw [h] at hts
  cases hts

/-- A byte that is a mistake whatever follows it is in the way of every extension. -/
theorem not_extendable_of_error {text : Bytes} {b : UInt8}
    (h : ∀ more, ∃ e, tokenize (text ++ b :: more) = .error e) : ¬ Extendable (text ++ [b]) := by
  rintro ⟨more, hmore⟩
  obtain ⟨e, he⟩ := h more
  rw [List.append_assoc, List.singleton_append] at hmore
  exact not_accepted_of_error he hmore

/-! ### Where an operand is expected -/

theorem tokenize_of_blank {line : Bytes} (h : line.all Byte.isBlank) :
    tokenize line = .error .emptyInput :=
  tokenize_of_tokens ((Lexer.Run.nil _).tokens_of_end (.atEnd h 0 .operand))

namespace OperandPlace

variable {place : Bytes}

theorem tokenize_eq (h : OperandPlace place) :
    ∃ e, tokenize place = .error e ∧ ∀ p, e ≠ .expectedDigits p := by
  obtain ⟨ts, blanks, p, hblanks, -, hlast, hrun⟩ := h.exists_run
  have htokens := (hrun []).tokens_of_end (.atEnd (by rwa [List.append_nil]) p .operand)
  rw [List.append_nil] at htokens
  rcases hlast with rfl | ⟨us, op, rfl⟩
  · exact ⟨_, tokenize_of_tokens htokens, nofun⟩
  · refine ⟨.danglingOperator op place.length, ?_, nofun⟩
    rw [tokenize_of_tokens htokens, List.getLast?_concat]

theorem accepted_literal (h : OperandPlace place) (literal : Literal) :
    Accepted (place ++ literal.text) := by
  obtain ⟨ts, blanks, p, hblanks, -, -, hrun⟩ := h.exists_run
  have hnumber := Lexer.Step.number hblanks literal [] .nil p
  rw [List.append_nil] at hnumber
  have hnothing : ([] : Bytes).all Byte.isBlank := rfl
  have htokens := ((hrun literal.text).concat hnumber rfl).tokens_of_end
    (.atEnd hnothing _ .operator)
  refine ⟨ts ++ [.number literal.number], ?_⟩
  rw [tokenize_of_tokens htokens, List.getLast?_concat]

theorem tokenize_byte (h : OperandPlace place) {b : UInt8} (hblank : Byte.isBlank b = false)
    (hdigit : Byte.isDigit b = false) (hsign : Sign.ofByte? b = none) (rest : Bytes) :
    tokenize (place ++ b :: rest) = .error (.expectedNumber place.length) := by
  obtain ⟨ts, blanks, p, hblanks, hlength, -, hrun⟩ := h.exists_run
  rw [← hlength]
  exact tokenize_of_error
    ((hrun _).tokens_of_error (.noOperand hblanks b hblank hdigit hsign rest p))

end OperandPlace

theorem AfterSign.tokenize_append {text rest : Bytes} (h : AfterSign text)
    (hrest : Literal.NoDigitAhead rest) :
    tokenize (text ++ rest) = .error (.expectedDigits text.length) := by
  obtain ⟨place, s, hplace, rfl⟩ := h
  obtain ⟨ts, blanks, p, hblanks, hlength, -, hrun⟩ := hplace.exists_run
  rw [List.append_assoc, List.length_append, ← hlength]
  exact tokenize_of_error ((hrun _).tokens_of_error (.detachedSign hblanks s rest hrest p))

theorem AfterSign.tokenize_eq {text : Bytes} (h : AfterSign text) :
    tokenize text = .error (.expectedDigits text.length) := by
  have hnothing : Literal.NoDigitAhead [] := nofun
  rw [← h.tokenize_append hnothing, List.append_nil]

/-! ### The three kinds of beginnings exclude each other -/

theorem OperandPlace.not_accepted {text : Bytes} (h : OperandPlace text) : ¬ Accepted text := by
  obtain ⟨e, he, -⟩ := h.tokenize_eq
  exact not_accepted_of_error he

theorem AfterSign.not_accepted {text : Bytes} (h : AfterSign text) : ¬ Accepted text :=
  not_accepted_of_error h.tokenize_eq

theorem OperandPlace.not_afterSign {text : Bytes} (h : OperandPlace text) : ¬ AfterSign text := by
  intro hsign
  obtain ⟨e, he, hne⟩ := h.tokenize_eq
  rw [hsign.tokenize_eq] at he
  exact hne text.length (Except.error.inj he).symm

/-! ### Reach -/

/-- The literal `0`. -/
def Literal.zero : Literal := ⟨none, [0x30], none, by decide, by decide, by decide⟩

theorem Accepted.extendable {text : Bytes} (h : Accepted text) : Extendable text :=
  ⟨[], by rwa [List.append_nil]⟩

theorem OperandPlace.extendable {text : Bytes} (h : OperandPlace text) : Extendable text :=
  ⟨_, h.accepted_literal .zero⟩

theorem AfterSign.extendable {text : Bytes} (h : AfterSign text) : Extendable text := by
  obtain ⟨place, s, hplace, rfl⟩ := h
  refine ⟨Literal.zero.text, ?_⟩
  rw [List.append_assoc]
  exact hplace.accepted_literal { Literal.zero with sign := some s }

/-- A beginning that can be extended is the reach of a line if the byte behind it
cannot be. -/
theorem IsReach.of_append {reach rest : Bytes} (hreach : Extendable reach)
    (hstop : ∀ b ∈ rest.head?, ¬ Extendable (reach ++ [b])) : IsReach (reach ++ rest) reach := by
  refine ⟨List.prefix_append _ _, hreach, ?_⟩
  intro text htext hextendable
  by_contra hlonger
  obtain ⟨beyond, rfl⟩ : reach <+: text :=
    List.prefix_of_prefix_length_le (List.prefix_append _ _) htext (by omega)
  cases beyond with
  | nil => simp at hlonger
  | cons b beyond =>
    obtain ⟨behind, hbehind⟩ := (List.prefix_append_right_inj reach).mp htext
    obtain ⟨more, hmore⟩ := hextendable
    refine hstop b (by rw [← hbehind]; rfl) ⟨beyond ++ more, ?_⟩
    rwa [List.append_assoc, List.cons_append] at hmore ⊢

/-- A sign that no digit follows is as far as a line makes sense. -/
theorem AfterSign.isReach {text rest : Bytes} (h : AfterSign text)
    (hrest : Literal.NoDigitAhead rest) : IsReach (text ++ rest) text := by
  refine .of_append h.extendable fun b hb => not_extendable_of_error fun more => ?_
  have hmore : Literal.NoDigitAhead (b :: more) := by
    intro c hc
    obtain rfl := Option.some.inj hc
    exact hrest b hb
  exact ⟨_, h.tokenize_append hmore⟩

/-- A byte that no literal starts with, where an operand is expected, is as far as a
line makes sense. -/
theorem OperandPlace.isReach {place : Bytes} (h : OperandPlace place) {b : UInt8}
    (hblank : Byte.isBlank b = false) (hdigit : Byte.isDigit b = false)
    (hsign : Sign.ofByte? b = none) (rest : Bytes) : IsReach (place ++ b :: rest) place := by
  refine .of_append h.extendable fun c hc => not_extendable_of_error fun more => ?_
  obtain rfl := Option.some.inj hc
  exact ⟨_, h.tokenize_byte hblank hdigit hsign more⟩

/-- A line that ends where an operand is expected makes sense as far as it goes. -/
theorem OperandPlace.isReach_self {place : Bytes} (h : OperandPlace place) :
    IsReach place place := by
  have hreach : IsReach (place ++ []) place := .of_append h.extendable nofun
  rwa [List.append_nil] at hreach

/-! ### Mistakes -/

/-- What can be wrong with a line, and the cause that is reported for it. -/
inductive Mistake : Bytes → ParseError → Prop
  /-- There is nothing in the line. -/
  | nothing {line : Bytes} (hline : line.all Byte.isBlank) : Mistake line .emptyInput
  /-- A byte follows that goes with nothing. -/
  | byte {text : Bytes} (htext : Accepted text) (b : UInt8) (hb : ¬ Extendable (text ++ [b]))
    (rest : Bytes) : Mistake (text ++ b :: rest) (.unexpectedByte b text.length)
  /-- No digit follows a sign. -/
  | sign {text : Bytes} (htext : AfterSign text) (rest : Bytes)
    (hrest : Literal.NoDigitAhead rest) : Mistake (text ++ rest) (.expectedDigits text.length)
  /-- A byte follows that no literal starts with. -/
  | operand {place : Bytes} (hplace : OperandPlace place) (b : UInt8)
    (hblank : Byte.isBlank b = false) (hdigit : Byte.isDigit b = false)
    (hsign : Sign.ofByte? b = none) (rest : Bytes) :
    Mistake (place ++ b :: rest) (.expectedNumber place.length)
  /-- The line ends behind an operator. -/
  | dangling {line : Bytes} (hline : OperandPlace line) (ts : List Token) (op : Op)
    (htokens : (Lexer.start line).tokens = .ok (ts ++ [.operator op])) :
    Mistake line (.danglingOperator op line.length)

namespace Lexer

variable {line blanks rest : Bytes} {ts : List Token} {p : Nat}

/-- Where an operator is expected, an accepted text lies behind, blanks included. -/
theorem Read.exists_accepted (h : Read line ts ⟨blanks ++ rest, p, .operator⟩)
    (hblanks : blanks.all Byte.isBlank) :
    ∃ text, Accepted text ∧ text ++ rest = line ∧ text.length = p + blanks.length := by
  generalize hl : blanks ++ rest = ahead at h
  cases h with
  | sentence s htrailing _ hline =>
    have htext := s.text_withTrailing hblanks htrailing
    refine ⟨s.text ++ blanks, htext ▸ Sentence.accepted _, ?_, List.length_append⟩
    rw [← hline, ← hl, List.append_assoc]

/-- Where an operand is expected, the place for it lies behind, blanks included. -/
theorem Read.exists_operandPlace (h : Read line ts ⟨blanks ++ rest, p, .operand⟩)
    (hblanks : blanks.all Byte.isBlank) :
    ∃ place, OperandPlace place ∧ place ++ rest = line ∧ place.length = p + blanks.length := by
  generalize hl : blanks ++ rest = ahead at h
  cases h with
  | start => exact ⟨blanks, .inl hblanks, hl, (Nat.zero_add _).symm⟩
  | operator s op _ hline =>
    refine ⟨s.text ++ op.symbol :: blanks, .inr ⟨_, op, blanks, s.accepted, hblanks, rfl⟩, ?_, ?_⟩
    · rw [← hline, ← hl, List.append_assoc, List.cons_append]
    · rw [List.length_append, List.length_cons]
      omega

/-- A byte that is no operator, where one is expected, is in the way of every
extension. -/
theorem Run.not_extendable {b : UInt8} {text : Bytes}
    (h : Run (start line) ts ⟨blanks ++ b :: rest, p, .operator⟩)
    (hblanks : blanks.all Byte.isBlank) (hb : Byte.isBlank b = false) (hop : Op.ofByte? b = none)
    (hline : text ++ b :: rest = line) : ¬ Extendable (text ++ [b]) := by
  refine not_extendable_of_error fun more => ?_
  obtain ⟨front, hfront, -, hexchange⟩ := h.exists_text
  replace hfront : line = front ++ (blanks ++ b :: rest) := hfront
  obtain rfl : text = front ++ blanks := by
    rw [← hline, ← List.append_assoc] at hfront
    exact List.append_cancel_right hfront
  have hhead : (blanks ++ b :: more).head? = (blanks ++ b :: rest).head? := by
    rw [List.head?_append, List.head?_append]
    rfl
  have herror := (hexchange (blanks ++ b :: more) (.of_head?_eq hhead)).tokens_of_error
    (.noOperator hblanks b hb hop more p)
  rw [List.append_assoc]
  exact ⟨_, tokenize_of_error herror⟩

end Lexer

/-- A line is refused for one of the mistakes. -/
theorem mistake_of_tokenize {line : Bytes} {e : ParseError} (h : tokenize line = .error e) :
    Mistake line e := by
  obtain ⟨ts, l, l', hrun, hstop⟩ := Lexer.exists_run (Lexer.start line)
  have hread := Lexer.Read.start.run hrun
  rw [List.nil_append] at hread
  rcases hstop with hend | ⟨e', herror⟩
  · -- all of the line is read, so the mistake is what is missing at its end
    have htokens := hrun.tokens_of_end hend
    rw [tokenize_of_tokens htokens] at h
    cases hread with
    | start =>
      cases h
      cases hend with
      | atEnd hblanks => exact .nothing hblanks
    | sentence s htrailing rest hline =>
      obtain ⟨x, hlast⟩ := s.exists_getLast?_tokens
      rw [hlast] at h
      cases h
    | operator s op rest hline =>
      rw [List.getLast?_concat] at h
      cases h
      cases hend with
      | atEnd hblanks =>
        exact .dangling (.inr ⟨s.text, op, rest, s.accepted, hblanks, hline.symm⟩) _ op htokens
  · rw [tokenize_of_error (hrun.tokens_of_error herror)] at h
    cases h
    cases herror with
    | @detachedSign blanks hblanks s rest hrest p =>
      obtain ⟨place, hplace, rfl, hlength⟩ := hread.exists_operandPlace hblanks
      have hposition : (place ++ [s.symbol]).length = p + blanks.length + 1 := by
        rw [List.length_append, hlength, List.length_singleton]
      rw [← hposition, List.append_cons]
      exact .sign ⟨place, s, hplace, rfl⟩ rest hrest
    | noOperand hblanks b hblank hdigit hsign rest p =>
      obtain ⟨place, hplace, rfl, hlength⟩ := hread.exists_operandPlace hblanks
      rw [← hlength]
      exact .operand hplace b hblank hdigit hsign rest
    | noOperator hblanks b hblank hop rest p =>
      obtain ⟨text, htext, rfl, hlength⟩ := hread.exists_accepted hblanks
      rw [← hlength]
      exact .byte htext b (hrun.not_extendable hblanks hblank hop rfl) rest

/-- There is nothing in a line exactly if it is reported so. -/
theorem tokenize_eq_emptyInput_iff {line : Bytes} :
    tokenize line = .error .emptyInput ↔ line.all Byte.isBlank := by
  constructor
  · intro h
    cases mistake_of_tokenize h with
    | nothing hline => exact hline
  · exact tokenize_of_blank

/-- A refused line is reported **at the end of its reach**, unless there is nothing
in it. -/
theorem message_at_reach (line : Bytes) :
    (line.all Byte.isBlank →
      ∃ e, tokenize line = .error e ∧ e.message = ofString "Expected an expression") ∧
    (¬ line.all Byte.isBlank → ∀ e, tokenize line = .error e →
      ∃ reach, IsReach line reach ∧ MessageAtReach line reach e.message) := by
  refine ⟨fun h => ⟨_, tokenize_of_blank h, rfl⟩, ?_⟩
  intro hline e he
  rw [e.message_eq]
  cases mistake_of_tokenize he with
  | nothing hblank => exact absurd hblank hline
  | @byte text htext b hb rest =>
    exact ⟨text, .of_append htext.extendable (fun c hc => Option.some.inj hc ▸ hb),
      { unexpected := fun _ => ⟨b, rest, rfl, rfl⟩
        digits := fun h => absurd htext h.not_accepted
        dangling := fun h => absurd htext h
        number := fun h => absurd htext h }⟩
  | @sign text htext rest hrest =>
    exact ⟨text, htext.isReach hrest,
      { unexpected := fun h => absurd h htext.not_accepted
        digits := fun _ => rfl
        dangling := fun _ h => absurd htext h
        number := fun _ h => absurd htext h }⟩
  | @operand place hplace b hblank hdigit hsign rest =>
    have hshorter : place.length ≠ (place ++ b :: rest).length := by
      rw [List.length_append, List.length_cons]
      omega
    exact ⟨place, hplace.isReach hblank hdigit hsign rest,
      { unexpected := fun h => absurd h hplace.not_accepted
        digits := fun h => absurd h hplace.not_afterSign
        dangling := fun _ _ h => absurd h hshorter
        number := fun _ _ _ => rfl }⟩
  | dangling hplace ts op htokens =>
    exact ⟨line, hplace.isReach_self,
      { unexpected := fun h => absurd h hplace.not_accepted
        digits := fun h => absurd h hplace.not_afterSign
        dangling := fun _ _ _ => ⟨ts, op, htokens, rfl⟩
        number := fun _ _ h => absurd rfl h }⟩

/-- The second sign of `2 +-x` lacks its digits. -/
theorem message_at_reach_detached_sign :
    tokenize (ofString "2 +-x") = .error (.expectedDigits 4) ∧
    ∃ reach, IsReach (ofString "2 +-x") reach ∧
      MessageAtReach (ofString "2 +-x") reach (ofString "Expected digits at position 4") := by
  have herror : tokenize (ofString "2 +-x") = .error (.expectedDigits 4) := by decide +kernel
  exact ⟨herror, (message_at_reach _).2 (by decide) _ herror⟩

end LineCalc
