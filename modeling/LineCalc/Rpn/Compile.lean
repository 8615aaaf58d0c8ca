import LineCalc.Chain.Basic
import LineCalc.Rpn.Machine
/-!
# LineCalc.Rpn.Compile

From a chain to reverse Polish code, in **one pass** over its links.

Operands are pushed as they come. An operator has to wait for its second operand
to be complete, so it is put on a stack of pending operators; what it releases
first are the pending operators that bind at least as tightly, since their
second operands are complete. All operators associate to the left, hence "at
least". At the end everything pending is released.
-/

namespace LineCalc

namespace Rpn

/-- The pending operators, the latest first. -/
abbrev Pending := List Op

/-- Whether `op` may be applied before `next`, which follows it. -/
def goesFirst (next op : Op) : Bool := next.precedence ≤ op.precedence

/-- The operators that `next` releases, in the order in which they are applied. -/
def released (next : Op) (pending : Pending) : List Op := pending.takeWhile (goesFirst next)

/-- What is pending once `next` has come. -/
def await (next : Op) (pending : Pending) : Pending := next :: pending.dropWhile (goesFirst next)

/-- The code for the links behind an operand that is pushed already. -/
def compileLinks (pending : Pending) : List Link → Code
  | [] => pending.map .apply
  | ⟨op, y⟩ :: rest =>
    (released op pending).map .apply ++ .push y :: compileLinks (await op pending) rest

/-- The operators that are pending once the given links have come. -/
def pendingAfter (pending : Pending) (links : List Link) : Pending :=
  links.foldl (fun pending link => await link.op pending) pending

end Rpn

/-- The code of a chain. -/
def Chain.compile (c : Chain) : Rpn.Code := .push c.first :: Rpn.compileLinks [] c.links

/-- The code of a token sequence. -/
def compile (ts : List Token) : Except EvalError Rpn.Code :=
  match Chain.ofTokens? ts with
  | some c => .ok c.compile
  | none => .error .malformed

end LineCalc
