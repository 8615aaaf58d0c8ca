import LineCalc.Literal.Basic
import LineCalc.Token.Basic
/-!
# LineCalc.Sentence

A **sentence** is a line that is an expression, cut into its parts: literals with
operators between them, and blanks around each of these. `Sentence.text` joins
the parts to the line and `Sentence.tokens` keeps what they stand for. Blanks
never stand inside a literal, and a sign belongs to its literal, so no blank
stands behind a sign.
-/

namespace LineCalc

/-- An operator with the literal behind it, and the blanks in front of each. -/
structure Clause where
  beforeOp : Bytes
  op : Op
  beforeLiteral : Bytes
  literal : Literal
  beforeOp_blank : beforeOp.all Byte.isBlank
  beforeLiteral_blank : beforeLiteral.all Byte.isBlank
  deriving DecidableEq

/-- A line that is an expression, cut into its parts. -/
structure Sentence where
  leading : Bytes
  first : Literal
  clauses : List Clause
  trailing : Bytes
  leading_blank : leading.all Byte.isBlank
  trailing_blank : trailing.all Byte.isBlank
  deriving DecidableEq

/-- The bytes of a clause. -/
def Clause.text (c : Clause) : Bytes :=
  c.beforeOp ++ c.op.symbol :: (c.beforeLiteral ++ c.literal.text)

/-- The tokens of a clause. -/
def Clause.tokens (c : Clause) : List Token := [.operator c.op, .number c.literal.number]

namespace Sentence

/-- The bytes of a sentence. -/
def text (s : Sentence) : Bytes :=
  s.leading ++ s.first.text ++ s.clauses.flatMap Clause.text ++ s.trailing

/-- The tokens of a sentence. -/
def tokens (s : Sentence) : List Token :=
  .number s.first.number :: s.clauses.flatMap Clause.tokens

end Sentence

end LineCalc
