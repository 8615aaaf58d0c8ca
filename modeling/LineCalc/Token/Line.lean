import LineCalc.Token.Lexer
/-!
# LineCalc.Token.Line

The **tokens of a line**, or the first thing that is wrong with it. The lexer
sees to it that operands and operators take turns, so two mistakes remain that
only show at the end of the line: there is nothing in it, or its last operator
has no second operand.
-/

namespace LineCalc

namespace Lexer

/-- All tokens from a place to the end of the line, without the end mark. -/
def tokens (l : Lexer) : Except ParseError (List Token) :=
  match h : l.next with
  | (.error e, _) => .error e
  | (.ok t, l') =>
    if ht : t.isEnd then .ok []
    else
      have : l'.rest.length < l.rest.length := length_rest_lt_of_next h (by simpa using ht)
      (t :: ·) <$> tokens l'
termination_by l.rest.length

theorem tokens_of_error {l l' : Lexer} {e : ParseError} (h : l.next = (.error e, l')) :
    l.tokens = .error e := by
  rw [tokens]
  split <;> simp_all

theorem tokens_of_end {l l' : Lexer} {t : Token} (h : l.next = (.ok t, l')) (ht : t.isEnd) :
    l.tokens = .ok [] := by
  rw [tokens]
  split <;> simp_all

/-- The tokens from here are the next one and the tokens from there. -/
theorem tokens_of_next {l l' : Lexer} {t : Token} (h : l.next = (.ok t, l'))
    (ht : t.isEnd = false) : l.tokens = (t :: ·) <$> l'.tokens := by
  rw [tokens]
  split <;> simp_all

end Lexer

/-- The tokens of a line. -/
def tokenize (line : Bytes) : Except ParseError (List Token) := do
  let tokens ← (Lexer.start line).tokens
  match tokens.getLast? with
  | none => .error .emptyInput
  | some (.operator op) => .error (.danglingOperator op line.length)
  | some _ => .ok tokens

end LineCalc
