import LineCalc.Error
import LineCalc.Literal.Scan
import LineCalc.Token.Basic
/-!
# LineCalc.Token.Lexer

A **lexer** is a place in a line and what is expected there, an operand or an
operator. Where an operand is expected, `+` and `-` are signs; where an operator
is expected, they are operators.

`Lexer.next` skips blanks and reads one token. It may be asked again after any
answer:

* a number makes it expect an operator, and an operator an operand;
* at the end it stays at the end;
* a sign without a digit behind it is passed by, and an operand is still
  expected;
* any other mistake leaves it standing in front of the offending byte.

`length_rest_lt_of_next` is the progress that reading a whole line rests on.
-/

namespace LineCalc

/-- What may stand at a place of a line. -/
inductive Expecting
  | operand
  | operator
  deriving Repr, DecidableEq

/-- A place in a line. -/
structure Lexer where
  /-- The bytes that are still to be read. -/
  rest : Bytes
  /-- How many bytes lie behind. -/
  position : Nat
  /-- What has to come next. -/
  expecting : Expecting
  deriving Repr, DecidableEq

namespace Lexer

/-- The start of a line. -/
def start (line : Bytes) : Lexer := ⟨line, 0, .operand⟩

/-- The next place that holds no blank. -/
def skipBlanks (l : Lexer) : Lexer :=
  { l with
    rest := l.rest.dropWhile Byte.isBlank
    position := l.position + (l.rest.takeWhile Byte.isBlank).length }

/-- Reads a number. A sign alone is an error behind the sign. -/
def readOperand (l : Lexer) : Except ParseError Token × Lexer :=
  match Literal.scan? l.rest with
  | some (literal, rest) =>
    (.ok (.number literal.number), ⟨rest, l.position + literal.text.length, .operator⟩)
  | none =>
    match Literal.scanSign l.rest with
    | (some _, rest) =>
      (.error (.expectedDigits (l.position + 1)), { l with rest, position := l.position + 1 })
    | (none, _) => (.error (.expectedNumber l.position), l)

/-- Reads an operator off `b`, the byte in front of `rest`. -/
def readOperator (l : Lexer) (b : UInt8) (rest : Bytes) : Except ParseError Token × Lexer :=
  match Op.ofByte? b with
  | some op => (.ok (.operator op), ⟨rest, l.position + 1, .operand⟩)
  | none => (.error (.unexpectedByte b l.position), l)

/-- Reads one token, and says where the lexer stands afterwards. -/
def next (l : Lexer) : Except ParseError Token × Lexer :=
  let l := l.skipBlanks
  match l.rest, l.expecting with
  | [], _ => (.ok .endOfInput, l)
  | _ :: _, .operand => l.readOperand
  | b :: rest, .operator => l.readOperator b rest

/-- The answers to `n` calls in turn, each with the place the lexer is left at. -/
def calls (l : Lexer) : Nat → List (Except ParseError Token × Lexer)
  | 0 => []
  | n + 1 => l.next :: calls l.next.2 n

/-! ### Progress -/

theorem length_rest_skipBlanks_le (l : Lexer) : l.skipBlanks.rest.length ≤ l.rest.length :=
  (List.dropWhile_sublist _).length_le

theorem length_rest_lt_of_readOperand {l l' : Lexer} {t : Token}
    (h : l.readOperand = (.ok t, l')) : l'.rest.length < l.rest.length := by
  unfold readOperand at h
  split at h
  · rename_i literal rest hscan
    obtain ⟨-, rfl⟩ := Prod.mk.inj h
    exact Literal.length_lt_of_scan? hscan
  · split at h <;> cases (Prod.mk.inj h).1

theorem rest_of_readOperator {l l' : Lexer} {b : UInt8} {rest : Bytes} {t : Token}
    (h : l.readOperator b rest = (.ok t, l')) : l'.rest = rest := by
  unfold readOperator at h
  split at h
  · exact (Prod.mk.inj h).2 ▸ rfl
  · cases (Prod.mk.inj h).1

/-- A token other than the end mark uses up a byte at least. -/
theorem length_rest_lt_of_next {l l' : Lexer} {t : Token} (h : l.next = (.ok t, l'))
    (ht : t.isEnd = false) : l'.rest.length < l.rest.length := by
  have hskip := l.length_rest_skipBlanks_le
  unfold next at h
  dsimp only at h
  split at h
  · obtain ⟨ht', -⟩ := Prod.mk.inj h
    cases Except.ok.inj ht'
    contradiction
  · exact Nat.lt_of_lt_of_le (length_rest_lt_of_readOperand h) hskip
  · rename_i b rest hrest _
    rw [rest_of_readOperator h]
    rw [hrest, List.length_cons] at hskip
    omega

end Lexer

end LineCalc
