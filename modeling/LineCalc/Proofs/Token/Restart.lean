import LineCalc.Proofs.Token.Reach
/-!
# LineCalc.Proofs.Token.Restart

Reading a line **starts again behind each operator**: what follows is read as a
line of its own, and only its positions are counted from the start of the whole.

* `Lexer.Step.shift` — a lexer does not look at its position, so it does the same
  anywhere; a run and the tokens of a line take this over;
* `ParseError.message_shift` — a cause further on has the same message but for the
  position;
* `tokenize_append_operator_eq` — an accepted text, an operator and any text.
-/

namespace LineCalc

open Bytes (ofString ofNat)

/-! ### Causes further on -/

namespace ParseError

/-- The same cause, `n` bytes further on. -/
def shift (n : Nat) : ParseError → ParseError
  | emptyInput => emptyInput
  | expectedNumber p => expectedNumber (p + n)
  | expectedDigits p => expectedDigits (p + n)
  | unexpectedByte b p => unexpectedByte b (p + n)
  | danglingOperator op p => danglingOperator op (p + n)

/-- `MessageShift n message message'`: the messages have the same words, and the
position in the second is greater by `n`. A message that is cut in front of a zero
byte shows no position. -/
inductive MessageShift (n : Nat) : Bytes → Bytes → Prop
  | position (words : Bytes) (p : Nat) :
    MessageShift n (words ++ atPosition p) (words ++ atPosition (p + n))
  | cut : MessageShift n (ofString "Unexpected character '") (ofString "Unexpected character '")

theorem exists_text_eq {e : ParseError} (h : e ≠ emptyInput) (n : Nat) :
    ∃ words p, e.text = words ++ atPosition p ∧ (e.shift n).text = words ++ atPosition (p + n) := by
  cases e with
  | emptyInput => exact absurd rfl h
  | expectedNumber p => exact ⟨_, p, rfl, rfl⟩
  | expectedDigits p => exact ⟨_, p, rfl, rfl⟩
  | unexpectedByte b p => exact ⟨_, p, rfl, rfl⟩
  | danglingOperator op p => exact ⟨_, p, rfl, rfl⟩

theorem exists_of_shift_eq_unexpectedByte {e : ParseError} {n : Nat} {b : UInt8} {p : Nat}
    (h : e.shift n = unexpectedByte b p) : ∃ q, e = unexpectedByte b q := by
  cases e with
  | unexpectedByte c q =>
    injection h with hbyte
    exact ⟨q, by rw [hbyte]⟩
  | _ => cases h

theorem message_shift {e : ParseError} (h : e ≠ emptyInput) (n : Nat) :
    MessageShift n e.message (e.shift n).message := by
  by_cases hcut : ∃ p, e = unexpectedByte 0 p
  · obtain ⟨p, rfl⟩ := hcut
    rw [shift, message_eq, message_eq]
    exact .cut
  · obtain ⟨words, p, htext, hshift⟩ := exists_text_eq h n
    have hmessage : e.message = e.text := message_eq_text fun p heq => hcut ⟨p, heq⟩
    have hmessage' : (e.shift n).message = (e.shift n).text :=
      message_eq_text fun p heq => hcut (exists_of_shift_eq_unexpectedByte heq)
    rw [hmessage, hmessage', htext, hshift]
    exact .position words p

end ParseError

/-! ### Lexers further on -/

namespace Lexer

/-- The same place of a line, with `n` bytes more in front of it. -/
def shift (n : Nat) (l : Lexer) : Lexer := { l with position := l.position + n }

/-- A lexer does not look at its position. -/
theorem Step.shift {l l' : Lexer} {answer : Except ParseError Token} (h : Step l answer l')
    (n : Nat) : Step (l.shift n) (answer.mapError (ParseError.shift n)) (l'.shift n) := by
  cases h with
  | atEnd hblanks p expecting =>
    have hstep := Step.atEnd hblanks (p + n) expecting
    rwa [Nat.add_right_comm p n] at hstep
  | number hblanks literal rest hstops p =>
    have hstep := Step.number hblanks literal rest hstops (p + n)
    rwa [Nat.add_right_comm p n, Nat.add_right_comm _ n] at hstep
  | operator hblanks op rest p =>
    have hstep := Step.operator hblanks op rest (p + n)
    rwa [Nat.add_right_comm p n, Nat.add_right_comm _ n] at hstep
  | detachedSign hblanks s rest hrest p =>
    have hstep := Step.detachedSign hblanks s rest hrest (p + n)
    rwa [Nat.add_right_comm p n, Nat.add_right_comm _ n] at hstep
  | noOperand hblanks b hblank hdigit hsign rest p =>
    have hstep := Step.noOperand hblanks b hblank hdigit hsign rest (p + n)
    rwa [Nat.add_right_comm p n] at hstep
  | noOperator hblanks b hblank hop rest p =>
    have hstep := Step.noOperator hblanks b hblank hop rest (p + n)
    rwa [Nat.add_right_comm p n] at hstep

theorem Run.shift {l l' : Lexer} {ts : List Token} (h : Run l ts l') (n : Nat) :
    Run (l.shift n) ts (l'.shift n) := by
  induction h with
  | nil l => exact .nil _
  | cons hstep ht _ ih => exact .cons (hstep.shift n) ht ih

/-- The tokens from a place, or the mistake there, are those of the same place
further on. -/
theorem tokens_shift (l : Lexer) (n : Nat) :
    (l.shift n).tokens = l.tokens.mapError (ParseError.shift n) := by
  obtain ⟨ts, l', l'', hrun, hstop⟩ := l.exists_run
  have hrun' := hrun.shift n
  rcases hstop with hend | ⟨e, herror⟩
  · have hend' : Step (l'.shift n) (.ok .endOfInput) (l''.shift n) := hend.shift n
    rw [hrun.tokens_of_end hend, hrun'.tokens_of_end hend']
    rfl
  · have herror' : Step (l'.shift n) (.error (e.shift n)) (l''.shift n) := herror.shift n
    rw [hrun.tokens_of_error herror, hrun'.tokens_of_error herror']
    rfl

/-- Behind an accepted text and an operator the tokens are those of a line of its
own. -/
theorem tokens_append_operator {text : Bytes} {ts : List Token} (h : tokenize text = .ok ts)
    (op : Op) (rest : Bytes) :
    (start (text ++ op.symbol :: rest)).tokens
      = (ts ++ [.operator op] ++ ·) <$>
          (start rest).tokens.mapError (ParseError.shift (text.length + 1)) := by
  have hstart : (start rest).shift (text.length + 1) = ⟨rest, text.length + 1, .operand⟩ := by
    simp [shift, start]
  rw [(run_operator_of_tokenize h op rest).tokens_eq, ← hstart, tokens_shift]

/-- A lexer does not mind a line with nothing in it. -/
theorem tokens_ne_emptyInput (line : Bytes) : (start line).tokens ≠ .error .emptyInput := by
  intro h
  have hblank := tokenize_eq_emptyInput_iff.mp (tokenize_of_error h)
  have hrun : Run (start line) [] (start line) := .nil _
  rw [hrun.tokens_of_end (.atEnd hblank 0 .operand)] at h
  cases h

end Lexer

/-! ### Lines behind an operator -/

/-- What becomes of a text behind an accepted one and an operator. -/
theorem tokenize_append_operator_eq {text : Bytes} {ts : List Token} (h : tokenize text = .ok ts)
    (op : Op) (rest : Bytes) :
    tokenize (text ++ op.symbol :: rest) = match tokenize rest with
      | .ok us => .ok (ts ++ .operator op :: us)
      | .error .emptyInput => .error (.danglingOperator op (text ++ op.symbol :: rest).length)
      | .error e => .error (e.shift (text.length + 1)) := by
  have htokens := Lexer.tokens_append_operator h op rest
  cases hrest : (Lexer.start rest).tokens with
  | error e =>
    replace htokens : (Lexer.start (text ++ op.symbol :: rest)).tokens
        = .error (e.shift (text.length + 1)) := by
      rw [htokens, hrest]
      rfl
    rw [tokenize_of_error hrest, tokenize_of_error htokens]
    cases e with
    | emptyInput => exact absurd hrest (Lexer.tokens_ne_emptyInput rest)
    | _ => rfl
  | ok us =>
    replace htokens : (Lexer.start (text ++ op.symbol :: rest)).tokens
        = .ok (ts ++ [.operator op] ++ us) := by
      rw [htokens, hrest]
      rfl
    rw [List.append_assoc, List.singleton_append] at htokens
    rw [tokenize_of_tokens hrest, tokenize_of_tokens htokens, List.getLast?_append,
      List.getLast?_cons]
    -- the last token of the rest is the last of the whole, if there is one
    cases hlast : us.getLast? with
    | none => rfl
    | some t =>
      have hlength : (text ++ op.symbol :: rest).length = rest.length + (text.length + 1) := by
        rw [List.length_append, List.length_cons]
        omega
      cases t with
      | operator o =>
        rw [hlength]
        rfl
      | number x => rfl
      | endOfInput => rfl

/-- Behind an accepted text and an operator **reading starts again**. A text that is
accepted there adds its tokens. One that is refused there is refused for the same
cause, further on; a blank one now lacks a number where it lacked everything. -/
theorem tokenize_restarts {text : Bytes} {ts : List Token} (h : tokenize text = .ok ts) (op : Op)
    (rest : Bytes) :
    (∀ us, tokenize rest = .ok us →
      tokenize (text ++ op.symbol :: rest) = .ok (ts ++ .operator op :: us)) ∧
    (∀ e, tokenize rest = .error e → ¬ rest.all Byte.isBlank →
      tokenize (text ++ op.symbol :: rest) = .error (e.shift (text.length + 1)) ∧
        ParseError.MessageShift (text.length + 1) e.message (e.shift (text.length + 1)).message) ∧
    (rest.all Byte.isBlank →
      ∃ e e', tokenize rest = .error e ∧ e.message = ofString "Expected an expression" ∧
        tokenize (text ++ op.symbol :: rest) = .error e' ∧
          e'.message = ofString "Expected a number after '" ++ op.symbol ::
            (ofString "' at position " ++ ofNat (text ++ op.symbol :: rest).length)) := by
  have hwhole := tokenize_append_operator_eq h op rest
  refine ⟨?_, ?_, ?_⟩
  · intro us hus
    rw [hwhole, hus]
  · intro e he hblank
    have hne : e ≠ .emptyInput := by
      rintro rfl
      exact hblank (tokenize_eq_emptyInput_iff.mp he)
    refine ⟨?_, ParseError.message_shift hne _⟩
    rw [hwhole, he]
    cases e with
    | emptyInput => exact absurd rfl hne
    | _ => rfl
  · intro hblank
    have hempty := tokenize_of_blank hblank
    rw [hempty] at hwhole
    exact ⟨_, _, hempty, ParseError.message_eq _, hwhole, ParseError.message_eq _⟩

/-- In `1. --2 x` the first `-` is the operator and the second one a sign, and the
stray byte is reported where the whole line has it. -/
theorem tokenize_restarts_behind_minus :
    tokenize (ofString "1. ") = .ok [.number (.plain 1)] ∧
    tokenize (ofString "-2 x") = .error (.unexpectedByte 0x78 3) ∧
    tokenize (ofString "1. " ++ Op.sub.symbol :: ofString "-2 x")
      = .error (.unexpectedByte 0x78 7) ∧
    ParseError.MessageShift 4 (ParseError.unexpectedByte 0x78 3).message
      (ParseError.unexpectedByte 0x78 7).message := by
  have htext : tokenize (ofString "1. ") = .ok [.number (.plain 1)] := by decide +kernel
  have hrest : tokenize (ofString "-2 x") = .error (.unexpectedByte 0x78 3) := by decide +kernel
  exact ⟨htext, hrest, (tokenize_restarts htext .sub _).2.1 _ hrest (by decide)⟩

end LineCalc
