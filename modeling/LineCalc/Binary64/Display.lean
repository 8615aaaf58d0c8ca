import LineCalc.Binary64.Shortest
/-!
# LineCalc.Binary64.Display

The **text of a number** as the program writes it: the digits of the shortest
decimal, positional for everyday sizes and with an exponent outside them, never
with a fraction of zeros. A NaN has no sign; the zeros and infinities keep
theirs.
-/

namespace LineCalc.Binary64

open Bytes (ofString ofNat)

/-- Leading exponents that are written positionally: `0.0001` and up to sixteen
whole digits. -/
def isPositional (leading : Int) : Bool := -4 ≤ leading && leading ≤ 15

/-- Zeros to fill places. -/
def zeros (n : Nat) : Bytes := List.replicate n (Byte.ofDigit 0)

/-- An exponent: its sign and at least two digits. -/
def exponentText (e : Int) : Bytes :=
  let digits := ofNat e.natAbs
  ofString (if e < 0 then "e-" else "e+") ++ zeros (2 - digits.length) ++ digits

/-- The digits with a point after the first `places` of them, if any are left. -/
def withPoint (places : Nat) (digits : Bytes) : Bytes :=
  match digits.drop places with
  | [] => digits
  | fraction => digits.take places ++ Byte.point :: fraction

/-- The text of a decimal. -/
def Decimal.text (d : Decimal) : Bytes :=
  let digits := ofNat d.coefficient
  let leading := d.exponent + digits.length - 1
  if isPositional leading then
    if leading < 0 then withPoint 1 (zeros (-leading).toNat ++ digits)
    else withPoint (leading.toNat + 1) (digits ++ zeros d.exponent.toNat)
  else withPoint 1 digits ++ exponentText leading

/-- The text of a number. -/
def text (x : Float) : Bytes :=
  if x.isNaN then ofString "nan"
  else
    let size :=
      if magnitude x = infinity then ofString "inf"
      else if magnitude x = 0 then ofString "0"
      else (shortest (magnitude x)).text
    if isNegative x then Byte.hyphen :: size else size

end LineCalc.Binary64
