import LineCalc.Op
/-!
# LineCalc.Token.Basic

A **token** is a number, an operator, or the mark of the end of a line. The end
mark is what a lexer answers when nothing is left; a sequence of tokens may hold
it, but no such sequence is an expression.

The text of a token is what a trace shows: `Token.sequenceText` puts one space
between the texts of neighbours.
-/

namespace LineCalc

/-- A token. -/
inductive Token
  /-- An operand. -/
  | number (x : Number)
  /-- A binary operator. -/
  | operator (op : Op)
  /-- Nothing is left to read. -/
  | endOfInput
  deriving Repr, DecidableEq

namespace Token

/-- Whether a token is the end mark. -/
def isEnd : Token → Bool
  | endOfInput => true
  | number _ | operator _ => false

/-- The text of a token. -/
def text : Token → Bytes
  | number x => x.text
  | operator op => [op.symbol]
  | endOfInput => Bytes.ofString "<end>"

/-- The text of a sequence: the texts of its tokens, separated by single spaces. -/
def sequenceText (tokens : List Token) : Bytes := Bytes.joinWith Byte.space (tokens.map text)

end Token

end LineCalc
