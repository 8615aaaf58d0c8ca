import LineCalc.Number
/-!
# LineCalc.Literal.Basic

A **literal** is a number as it is written: an optional sign, one digit or more,
and optionally a point with any number of digits behind it. There is no
exponent, and the point needs a digit in front of it.

`Literal.text` writes a literal down; `Literal.value` is the correctly rounded
number. The sign is set apart from the rounding, so a literal of zeros keeps its
sign.
-/

namespace LineCalc

/-- The sign of a literal. -/
inductive Sign
  | plus
  | minus
  deriving Repr, DecidableEq

namespace Sign

/-- The byte that a sign is written as. -/
def symbol : Sign → UInt8
  | plus => 0x2b
  | minus => 0x2d

/-- The sign that a byte stands for. -/
def ofByte? (b : UInt8) : Option Sign := [plus, minus].find? (·.symbol == b)

@[simp] theorem ofByte?_symbol (s : Sign) : ofByte? s.symbol = some s := by
  cases s <;> decide

theorem ofByte?_eq_some_iff {b : UInt8} {s : Sign} : ofByte? b = some s ↔ s.symbol = b := by
  constructor
  · intro h
    simpa using List.find?_some h
  · rintro rfl
    exact ofByte?_symbol s

/-- No sign is a digit. -/
theorem isDigit_symbol (s : Sign) : Byte.isDigit s.symbol = false := by
  cases s <;> decide

/-- A digit is no sign. -/
theorem ofByte?_of_isDigit {b : UInt8} (h : Byte.isDigit b) : ofByte? b = none := by
  cases hs : ofByte? b with
  | none => rfl
  | some s =>
    rw [ofByte?_eq_some_iff] at hs
    rw [← hs, isDigit_symbol] at h
    contradiction

end Sign

/-- A number as it is written. `fraction` is `none` where there is no point. -/
structure Literal where
  sign : Option Sign
  whole : Bytes
  fraction : Option Bytes
  whole_ne_nil : whole ≠ []
  whole_digits : whole.all Byte.isDigit
  fraction_digits : (fraction.getD []).all Byte.isDigit
  deriving DecidableEq

namespace Literal

/-! ### Writing -/

/-- The bytes of an optional sign. -/
def signText : Option Sign → Bytes
  | none => []
  | some s => [s.symbol]

/-- The bytes of an optional fraction, its point included. -/
def fractionText : Option Bytes → Bytes
  | none => []
  | some digits => Byte.point :: digits

/-- The bytes of a literal. -/
def text (l : Literal) : Bytes := signText l.sign ++ (l.whole ++ fractionText l.fraction)

theorem text_ne_nil (l : Literal) : l.text ≠ [] := by
  simp [text, l.whole_ne_nil]

/-- Behind its sign a literal goes on with a digit. -/
theorem exists_whole_eq_cons (l : Literal) : ∃ d ds, l.whole = d :: ds ∧ Byte.isDigit d := by
  obtain ⟨d, ds, hwhole⟩ := List.exists_cons_of_ne_nil l.whole_ne_nil
  have hdigits := l.whole_digits
  rw [hwhole, List.all_cons, Bool.and_eq_true] at hdigits
  exact ⟨d, ds, hwhole, hdigits.1⟩

/-! ### The number a literal stands for -/

/-- The number that a row of digits stands for. -/
def digitsValue (digits : Bytes) : Nat :=
  digits.foldl (fun n b => 10 * n + Byte.digitValue b) 0

/-- All digits of a literal, as if there were no point. -/
def digits (l : Literal) : Bytes := l.whole ++ l.fraction.getD []

/-- The numerator of the exact value. -/
def num (l : Literal) : Nat := digitsValue l.digits

/-- The denominator of the exact value: a ten for each digit behind the point. -/
def den (l : Literal) : Nat := Nat.pow 10 (l.fraction.getD []).length

/-- Whether a literal carries a minus. -/
def isNegative (l : Literal) : Bool := l.sign == some .minus

/-- The number nearest to the exact value, a tie going to the even significand. -/
def value (l : Literal) : Float :=
  Binary64.ofMagnitude l.isNegative (Binary64.nearest l.num l.den)

/-- The value as an operand. A literal is never a NaN. -/
def number (l : Literal) : Number := .plain l.value

theorem den_pos (l : Literal) : 0 < l.den := Nat.pow_pos (by decide)

end Literal

end LineCalc
