import LineCalc.Binary64.Nearest
/-!
# LineCalc.Binary64.Shortest

The **shortest decimal** of a finite value: the decimal with the fewest digits
among those that read back as the value, and the one nearest to the value among
those of that length.

A decimal reads back as `b` when it lies between the midpoints to the neighbours
of `b`; a midpoint itself belongs to the even of its two neighbours
(`readsBack`). Decimals of a given exponent form a grid, and if any point of a
grid reads back, so does one of the two that enclose the value. So it is enough
to look at those two, on coarser grids first.
-/

namespace LineCalc.Binary64

/-- The decimal `coefficient * 10 ^ exponent`. -/
structure Decimal where
  coefficient : Nat
  exponent : Int
  deriving Repr, DecidableEq

namespace Decimal

/-- The numerator of a decimal. -/
def num (d : Decimal) : Nat := d.coefficient * Nat.pow 10 d.exponent.toNat

/-- The denominator of a decimal. -/
def den (d : Decimal) : Nat := Nat.pow 10 (-d.exponent).toNat

end Decimal

/-- Whether `d` lies in the interval of the numbers that round to the magnitude
`b`. The comparison is in half units, in which the midpoints are whole. -/
def readsBack (b : Nat) (d : Decimal) : Bool :=
  let low := (units (b - 1) + units b) * d.den
  let high := (units b + units (b + 1)) * d.den
  let x := (2 * d.num) <<< unitExponent
  if b % 2 = 0 then low ≤ x && x ≤ high else low < x && x < high

/-- The decimal with the given exponent that reads back as `b`, if there is one;
of two such, the nearer to `b`, and the even one where both are as near. -/
def onGrid? (b : Nat) (exponent : Int) : Option Decimal :=
  let num := units b * Nat.pow 10 (-exponent).toNat
  let den := Nat.pow 10 exponent.toNat <<< unitExponent
  let below := num / den
  [roundHalfEven num den, below, below + 1].map (⟨·, exponent⟩) |>.find? (readsBack b)

/-- The exponent of the leading decimal digit of a finite magnitude that is not
zero. No such value is below `10 ^ -324`. -/
def leadingExponent (b : Nat) : Int :=
  (Nat.repr ((units b * Nat.pow 10 324) >>> unitExponent)).length - 1 - 324

/-- The shortest decimal of a finite magnitude that is not zero. Seventeen digits
are always enough. -/
def shortest (b : Nat) : Decimal :=
  let coarsest := leadingExponent b + 1
  ((List.range 18).findSome? fun (i : Nat) => onGrid? b (coarsest - i)).getD ⟨0, 0⟩

end LineCalc.Binary64
