import LineCalc.Binary64.Display
/-!
# LineCalc.Number

The **numbers** that are calculated with: all binary64 numbers, with one NaN of
each kind. A quiet NaN is a number like any other as far as an operator is
concerned, and may go unnoticed: `1 ^ nan` is `1`. A **signaling** NaN spoils
every operation that it enters. No operation gives one and no literal stands for
one, so it can only be a number that was there from the start.

`Float` has the quiet NaN alone. `Number.lift₂` takes a function on floats to
numbers, and `Number.toFloat` is the view in which all NaNs are one.
-/

namespace LineCalc

/-- A binary64 number. -/
inductive Number
  /-- A number, an infinity or the quiet NaN. -/
  | plain (x : Float)
  /-- The signaling NaN. -/
  | signaling
  deriving Repr, DecidableEq

namespace Number

/-- The quiet NaN. -/
def nan : Number := .plain (Float.ofBits 0x7ff8000000000000)

/-- The bit of a NaN's magnitude that makes it quiet: two to the 51st. -/
def quietBit : Nat := 0x8000000000000

/-- The number that 64 bits stand for. The magnitudes above infinity are the
NaNs, and those that are short of the quiet bit signal. -/
def ofBits (bits : UInt64) : Number :=
  let magnitude := bits.toNat % Binary64.signBit
  if Binary64.infinity < magnitude ∧ magnitude < Binary64.infinity + quietBit then .signaling
  else .plain (Float.ofBits bits)

/-- The float of a number, all NaNs being one. -/
def toFloat : Number → Float
  | plain x => x
  | signaling => Float.ofBits 0x7ff8000000000000

/-- A function on floats as a function on numbers: a signaling operand makes the
result a quiet NaN, whatever the function. -/
def lift₂ (f : Float → Float → Float) : Number → Number → Number
  | plain x, plain y => .plain (f x y)
  | _, _ => nan

/-- The text of a number. -/
def text (n : Number) : Bytes := Binary64.text n.toFloat

@[simp] theorem toFloat_plain (x : Float) : (plain x).toFloat = x := rfl

@[simp] theorem toFloat_signaling : signaling.toFloat = nan.toFloat := rfl

@[simp] theorem lift₂_plain (f : Float → Float → Float) (x y : Float) :
    lift₂ f (plain x) (plain y) = .plain (f x y) := rfl

@[simp] theorem lift₂_signaling_left (f : Float → Float → Float) (n : Number) :
    lift₂ f signaling n = nan := by cases n <;> rfl

@[simp] theorem lift₂_signaling_right (f : Float → Float → Float) (n : Number) :
    lift₂ f n signaling = nan := by cases n <;> rfl

/-- No operation gives a signaling NaN. -/
theorem lift₂_ne_signaling (f : Float → Float → Float) (m n : Number) :
    lift₂ f m n ≠ signaling := by cases m <;> cases n <;> simp [nan]

end Number

end LineCalc
