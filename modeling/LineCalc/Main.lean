import LineCalc.CommandLine.Session
/-!
# LineCalc.Main

The program. It hands its arguments and its input to `CommandLine.invoke` and
writes the transcript; at a terminal it asks for one line at a time and answers
it with `CommandLine.answerInput`.
-/

namespace LineCalc.Program

open CommandLine

/-- The name the program goes by in its usage text. -/
def name : Bytes := Bytes.ofString "linecalc"

/-- Writes all of a text, at once. -/
def write (stream : IO.FS.Stream) (text : Bytes) : IO Unit := do
  stream.write ⟨text.toArray⟩
  stream.flush

/-- Writes a transcript and gives back its exit code. -/
def play (t : Transcript) : IO Nat := do
  write (← IO.getStdout) t.out
  write (← IO.getStderr) t.err
  return t.code

/-- All bytes of a stream. -/
partial def readAll (stream : IO.FS.Stream) (seen : ByteArray) : IO ByteArray := do
  let block ← stream.read 65536
  if block.isEmpty then return seen else readAll stream (seen ++ block)

/-- The bytes of a stream up to the end of a line, the newline included. -/
partial def readLine (stream : IO.FS.Stream) (seen : ByteArray) : IO ByteArray := do
  let byte ← stream.read 1
  if byte.isEmpty then return seen
  else if byte.toList == [Byte.newline] then return seen ++ byte
  else readLine stream (seen ++ byte)

/-- Asks for lines and answers them, until the input ends. -/
partial def converse (opts : Options) (stream : IO.FS.Stream) : IO Nat := do
  write (← IO.getStdout) prompt
  match Bytes.lines (← readLine stream .empty).toList with
  | [] =>
    write (← IO.getStdout) [Byte.newline]
    return 0
  | line :: _ =>
    let code ← play (answerInput opts line)
    if code = 0 then converse opts stream else return code

/-- Runs the program on its arguments and the standard input. -/
def run (args : List Bytes) : IO Nat := do
  let stdin ← IO.getStdin
  match Options.parse args with
  | .ok opts =>
    if opts.help || opts.expression.isSome then play (invoke name args [])
    else if ← stdin.isTty then converse opts stdin
    else play (invoke name args (← readAll stdin .empty).toList)
  | .error _ => play (invoke name args [])

end LineCalc.Program

/-- Evaluates the expression among the arguments, or the lines of the input. -/
def main (args : List String) : IO UInt32 := do
  return (← LineCalc.Program.run (args.map LineCalc.Bytes.ofString)).toUInt32
