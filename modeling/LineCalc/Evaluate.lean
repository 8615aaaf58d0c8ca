import LineCalc.Chain.Reduction
import LineCalc.Rpn.Compile
import LineCalc.Token.Line
/-!
# LineCalc.Evaluate

The value of a line. There are two **engines**, one that reduces the chain and
one that compiles it and runs the code; a line is read in the same way for both.
-/

namespace LineCalc

/-- A way to find the value of a token sequence. -/
inductive Engine
  /-- Applies operators tier by tier. -/
  | reduction
  /-- Compiles to reverse Polish code and runs it. -/
  | rpn
  deriving Repr, DecidableEq

/-- The value of a token sequence. -/
def Engine.value : Engine → List Token → Except EvalError Number
  | reduction, ts => reduce ts
  | rpn, ts => compile ts >>= Rpn.run

/-- The value of a line. -/
def evaluate (line : Bytes) (engine : Engine) : Except Error Number :=
  match tokenize line with
  | .error e => .error (.parse e)
  | .ok ts =>
    match engine.value ts with
    | .error e => .error (.eval e)
    | .ok x => .ok x

end LineCalc
