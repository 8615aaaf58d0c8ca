import LineCalc.CommandLine.Options
/-!
# LineCalc.CommandLine.Session

What the program **writes**, as a function of its arguments and its input.

A line is answered on the output stream, by its value or by the remark that it
cannot be read; both are answers, and the exit code stays zero. What the
`verbose` flag asks for goes to the error stream. Without an expression among
the arguments the lines of the input are answered in turn, blank ones by
silence.
-/

namespace LineCalc.CommandLine

open Bytes (ofString)

/-- What has been written, and the exit code. -/
structure Transcript where
  code : Nat
  out : Bytes
  err : Bytes
  deriving Repr, DecidableEq

namespace Transcript

/-- Nothing is written, and all is well. -/
def silent : Transcript := ⟨0, [], []⟩

/-- Goes on with `next`, unless the first part ended the program. -/
def followedBy (t next : Transcript) : Transcript :=
  if t.code = 0 then ⟨next.code, t.out ++ next.out, t.err ++ next.err⟩ else t

end Transcript

/-- A line of output. -/
def lineOf (text : Bytes) : Bytes := text ++ [Byte.newline]

/-- What `verbose` shows of a line: its tokens, and under the reduction engine
the sequence after each operator applied. -/
def traceText (engine : Engine) (ts : List Token) : Bytes :=
  let steps := match engine with
    | .reduction => (Reduction.ofTokens ts).steps
    | .rpn => []
  lineOf (ofString "tokens: " ++ Token.sequenceText ts) ++
    steps.flatMap fun step => lineOf (ofString "  -> " ++ Token.sequenceText step)

/-- The answer to a line. -/
def answer (opts : Options) (line : Bytes) : Transcript :=
  match tokenize line with
  | .error e =>
    { code := 0
      out := lineOf (ofString "Unable to parse expression: " ++ line)
      err := if opts.verbose then lineOf (ofString "parse error: " ++ e.message) else [] }
  | .ok ts =>
    let trace := if opts.verbose then traceText opts.engine ts else []
    match opts.engine.value ts with
    | .error e => ⟨1, [], trace ++ lineOf (ofString "Error: could not evaluate: " ++ e.message)⟩
    | .ok x => ⟨0, lineOf (x.text), trace⟩

/-- The bytes of a line that there is nothing to say about. -/
def silentBytes : Bytes := ofString " \t\r\n\x0b\x0c"

/-- Whether a line is passed over in silence. -/
def isBlankLine (line : Bytes) : Bool := line.all silentBytes.contains

/-- The answer to a line of input. -/
def answerInput (opts : Options) (line : Bytes) : Transcript :=
  if isBlankLine line then .silent else answer opts line

/-- Answers the expression, or else the lines of the input. -/
def run (opts : Options) (input : Bytes) : Transcript :=
  match opts.expression with
  | some line => answer opts line
  | none =>
    (Bytes.lines input).foldr (fun line next => (answerInput opts line).followedBy next) .silent

/-- How the program is used. -/
def usage (program : Bytes) : Bytes :=
  lineOf (ofString "Usage: " ++ program ++ ofString " [options] [expression...]") ++
    [ "",
      "Evaluates an arithmetic expression of numbers and the operators ^ * / + -.",
      "Without an expression, reads one expression per line from standard input.",
      "",
      "Options:",
      "  -h, --help     show this message",
      "  -v, --verbose  trace tokens and reductions on stderr",
      "      --rpn      evaluate with the single-pass RPN engine",
      "      --         treat the remaining arguments as the expression"
    ].flatMap fun line => lineOf (ofString line)

/-- A whole run of the program, when its input is no conversation. -/
def invoke (program : Bytes) (args : List Bytes) (input : Bytes) : Transcript :=
  match Options.parse args with
  | .error e => ⟨2, [], lineOf (ofString "Error: " ++ e.message) ++ usage program⟩
  | .ok opts => if opts.help then ⟨0, usage program, []⟩ else run opts input

/-- What is written to ask for a line. -/
def prompt : Bytes := ofString "> "

end LineCalc.CommandLine
