import LineCalc.Op
/-!
# LineCalc.Error

The **causes of failure**, and the one wording of each.

* `ParseError` — a line is no expression; all but the first cause carry the
  position, in bytes, where the line goes wrong;
* `EvalError` — a token sequence or a stack program is not one that can be
  valued; no line that was read causes one;
* `UsageError` — the program was called with an option it does not know.

A message is shown as text that ends at a zero byte, so a message that quotes
such a byte stops in front of it.
-/

namespace LineCalc

/-- Why a line is not an expression. -/
inductive ParseError
  /-- The line holds blanks only. -/
  | emptyInput
  /-- A number has to start at `position`, and none does. -/
  | expectedNumber (position : Nat)
  /-- A digit has to follow the sign that ends at `position`. -/
  | expectedDigits (position : Nat)
  /-- An operator has to stand at `position`; there `byte` stands. -/
  | unexpectedByte (byte : UInt8) (position : Nat)
  /-- The line ends, at `position`, where `op` still lacks its second operand. -/
  | danglingOperator (op : Op) (position : Nat)
  deriving Repr, DecidableEq

/-- Why a token sequence or a stack program has no value. -/
inductive EvalError
  /-- Numbers and operators do not alternate. -/
  | malformed
  /-- An operator finds fewer than two values on the stack. -/
  | stackUnderflow
  /-- A program leaves no value, or several. -/
  | notSingleValue
  deriving Repr, DecidableEq

/-- Why the arguments of the program make no sense. -/
inductive UsageError
  /-- `arg` has the form of an option, and is none. -/
  | unknownOption (arg : Bytes)
  deriving Repr, DecidableEq

/-- Anything that can go wrong between the arguments and a value. -/
inductive Error
  | usage (e : UsageError)
  | parse (e : ParseError)
  | eval (e : EvalError)
  deriving Repr, DecidableEq

namespace Bytes

/-- The part of a text in front of its first zero byte. -/
def beforeZero (text : Bytes) : Bytes := text.takeWhile (· != 0)

end Bytes

open Bytes (ofString ofNat)

namespace ParseError

/-- The end of the messages that name a place. -/
def atPosition (position : Nat) : Bytes := ofString " at position " ++ ofNat position

/-- The wording of a cause, whatever bytes it quotes. -/
def text : ParseError → Bytes
  | emptyInput => ofString "Expected an expression"
  | expectedNumber p => ofString "Expected a number" ++ atPosition p
  | expectedDigits p => ofString "Expected digits" ++ atPosition p
  | unexpectedByte b p => ofString "Unexpected character '" ++ b :: ofString "'" ++ atPosition p
  | danglingOperator op p =>
    ofString "Expected a number after '" ++ op.symbol :: ofString "'" ++ atPosition p

/-- The message of a cause: its wording, as far as the first zero byte. -/
def message (e : ParseError) : Bytes := e.text.beforeZero

end ParseError

/-- The message of a cause. -/
def EvalError.message : EvalError → Bytes
  | malformed => ofString "Malformed token sequence"
  | stackUnderflow => ofString "Stack underflow (bad program)"
  | notSingleValue => ofString "Program did not reduce to a single value"

/-- The message of a cause; an argument holds no zero byte. -/
def UsageError.message : UsageError → Bytes
  | unknownOption arg => ofString "Unknown option: " ++ arg

/-- The message of a cause. -/
def Error.message : Error → Bytes
  | usage e => e.message
  | parse e => e.message
  | eval e => e.message

end LineCalc
