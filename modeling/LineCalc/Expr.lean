import LineCalc.Chain.Basic
import LineCalc.Rpn.Machine
/-!
# LineCalc.Expr

An **expression tree**: what a flat expression means once it is decided which
operands each operator has.

A tree has its tokens (`tokens`, in order) and its code (`code`, operands before
operators), and it is the tree of its tokens by the rules of precedence when it
is `Tight`: an operator to the left of another may bind equally, an operator to
the right must bind more tightly.

`exec_code_append` says that the code of a tree pushes the value of the tree,
whatever is on the stack and whatever follows.
-/

namespace LineCalc

/-- An expression tree. -/
inductive Expr
  | operand (x : Number)
  | node (op : Op) (left right : Expr)
  deriving Repr, DecidableEq

namespace Expr

/-- The operator at the top, if there is one. -/
def root? : Expr → Option Op
  | operand _ => none
  | node op _ _ => some op

/-- The value of a tree. -/
def value : Expr → Number
  | operand x => x
  | node op l r => op.apply l.value r.value

/-- The tokens of a tree, in order. -/
def tokens : Expr → List Token
  | operand x => [.number x]
  | node op l r => l.tokens ++ .operator op :: r.tokens

/-- The code of a tree: each operator behind the code of its operands. -/
def code : Expr → Rpn.Code
  | operand x => [.push x]
  | node op l r => l.code ++ r.code ++ [.apply op]

/-- The operands of each operator bind more tightly than it does, on the left at
least equally. -/
def Tight : Expr → Prop
  | operand _ => True
  | node op l r =>
    (∀ o ∈ l.root?, op.precedence ≤ o.precedence) ∧
      (∀ o ∈ r.root?, op.precedence < o.precedence) ∧ l.Tight ∧ r.Tight

/-- The code of a tree pushes its value. -/
theorem exec_code_append (e : Expr) (stack : Rpn.Stack) (more : Rpn.Code) :
    Rpn.exec stack (e.code ++ more) = Rpn.exec (e.value :: stack) more := by
  induction e generalizing stack more with
  | operand x => rfl
  | node op l r ihl ihr =>
    rw [code, List.append_assoc, List.append_assoc, ihl, ihr, List.singleton_append, Rpn.exec_cons]
    rfl

/-- Running the code of a tree gives its value. -/
theorem run_code (e : Expr) : Rpn.run e.code = .ok e.value := by
  have h := e.exec_code_append [] []
  rw [List.append_nil] at h
  rw [Rpn.run, h]
  rfl

end Expr

end LineCalc
