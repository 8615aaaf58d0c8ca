import LineCalc.Number
/-!
# LineCalc.Op

The five **binary operators**, their symbols and their strength. All of them
associate to the left, `^` included, so an operator is fully described by its
symbol, its `precedence` and the function it applies.
-/

namespace LineCalc

/-- A binary operator. -/
inductive Op
  /-- Power, `^`. -/
  | pow
  /-- Product, `*`. -/
  | mul
  /-- Quotient, `/`. -/
  | div
  /-- Sum, `+`. -/
  | add
  /-- Difference, `-`. -/
  | sub
  deriving Repr, DecidableEq

namespace Op

/-- All operators. -/
def all : List Op := [pow, mul, div, add, sub]

/-- How tightly an operator binds its operands: its **tier**. -/
def precedence : Op → Nat
  | pow => 3
  | mul | div => 2
  | add | sub => 1

/-- The tiers, tightest first. -/
def tiers : List Nat := [3, 2, 1]

/-- The byte that an operator is written as. -/
def symbol : Op → UInt8
  | pow => 0x5e
  | mul => 0x2a
  | div => 0x2f
  | add => 0x2b
  | sub => 0x2d

/-- The operator that a byte stands for. -/
def ofByte? (b : UInt8) : Option Op := all.find? (·.symbol == b)

/-- The function on floats that an operator stands for. Division by zero,
overflow and undefined powers give infinities and NaN; no operand is an error. -/
def onFloats : Op → Float → Float → Float
  | pow, a, b => a.pow b
  | mul, a, b => a * b
  | div, a, b => a / b
  | add, a, b => a + b
  | sub, a, b => a - b

/-- The value of `a op b`. -/
def apply (op : Op) : Number → Number → Number := Number.lift₂ op.onFloats

/-- Every operator belongs to a tier. -/
theorem precedence_mem_tiers (op : Op) : op.precedence ∈ tiers := by cases op <;> decide

@[simp] theorem ofByte?_symbol (op : Op) : ofByte? op.symbol = some op := by
  cases op <;> decide

/-- A byte stands for an operator exactly when it is that operator's symbol. -/
theorem ofByte?_eq_some_iff {b : UInt8} {op : Op} : ofByte? b = some op ↔ op.symbol = b := by
  constructor
  · intro h
    simpa using List.find?_some h
  · rintro rfl
    exact ofByte?_symbol op

/-- Different operators have different symbols. -/
theorem symbol_injective {o p : Op} (h : o.symbol = p.symbol) : o = p := by
  have := ofByte?_symbol o
  rw [h, ofByte?_symbol] at this
  exact (Option.some.inj this).symm

end Op

end LineCalc
