import LineCalc.Error
/-!
# LineCalc.Rpn.Machine

A **stack machine** for code in reverse Polish order. An instruction pushes a
number, or takes two values off the stack and pushes the result of an operator;
the value on top is the second operand.

Any list of instructions can be run. Code that takes more than there is, or that
does not end with exactly one value, is an error.
-/

namespace LineCalc.Rpn

/-- An instruction of the stack machine. -/
inductive Instr
  /-- Push a number. -/
  | push (x : Number)
  /-- Replace the two topmost values by the value of `op` on them. -/
  | apply (op : Op)
  deriving Repr, DecidableEq

/-- What the machine runs, first instruction first. -/
abbrev Code := List Instr

/-- The values of the machine, topmost first. -/
abbrev Stack := List Number

/-- Executes one instruction. -/
def Instr.exec (stack : Stack) : Instr → Except EvalError Stack
  | push x => .ok (x :: stack)
  | apply op =>
    match stack with
    | b :: a :: rest => .ok (op.apply a b :: rest)
    | _ => .error .stackUnderflow

/-- Executes code from a given stack. -/
def exec (stack : Stack) (code : Code) : Except EvalError Stack := code.foldlM Instr.exec stack

/-- The one value that code leaves. -/
def run (code : Code) : Except EvalError Number := do
  match ← exec [] code with
  | [x] => .ok x
  | _ => .error .notSingleValue

@[simp] theorem exec_nil (stack : Stack) : exec stack [] = .ok stack := rfl

@[simp] theorem exec_cons (stack : Stack) (i : Instr) (code : Code) :
    exec stack (i :: code) = i.exec stack >>= fun stack => exec stack code := by
  simp [exec]

end LineCalc.Rpn
