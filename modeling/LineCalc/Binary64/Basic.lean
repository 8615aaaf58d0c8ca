import LineCalc.Bytes
/-!
# LineCalc.Binary64.Basic

Binary64 numbers as **a sign and a magnitude**. A magnitude is the natural
number in the low 63 bits; magnitudes up to `infinity` are ordered as the values
they stand for, so the neighbours of a value are the neighbours of its magnitude.

Every finite value is a whole number of **units** of `2 ^ -1074`. `units` is
that number, and `units_lt_units` says that it grows with the magnitude.
-/

namespace LineCalc.Binary64

/-- How many magnitudes share one exponent: two to the 52nd. -/
def binade : Nat := 0x10000000000000

/-- The magnitude of the infinities; all smaller ones are finite. -/
def infinity : Nat := 0x7ff * binade

/-- The bit that tells the negative numbers: two to the 63rd. -/
def signBit : Nat := 0x8000000000000000

/-- The exponent of the unit: all finite values are multiples of `2 ^ -1074`. -/
def unitExponent : Nat := 1074

/-- The number with the given sign and magnitude. -/
def ofMagnitude (negative : Bool) (magnitude : Nat) : Float :=
  Float.ofBits ((if negative then signBit else 0) + magnitude).toUInt64

/-- The magnitude of a number. -/
def magnitude (x : Float) : Nat := x.toBits.toNat % signBit

/-- The sign of a number; the zeros have one too. -/
def isNegative (x : Float) : Bool := signBit ≤ x.toBits.toNat

/-- The value of a finite magnitude, in units. The first binade is spaced as the
second, and from there each is spaced twice as wide as the one before it. At
`infinity` this is the value that the next binade would start with. -/
def units (magnitude : Nat) : Nat :=
  if magnitude < binade then magnitude
  else (binade + magnitude % binade) <<< (magnitude / binade - 1)

@[simp] theorem units_zero : units 0 = 0 := by decide

theorem units_of_lt {b : Nat} (h : b < binade) : units b = b := by simp [units, h]

/-- Within its binade a magnitude stands for evenly spaced values. -/
theorem units_binade (k f : Nat) (hf : f < binade) :
    units ((k + 1) * binade + f) = (binade + f) <<< k := by
  have hb : 0 < binade := by decide
  have hge : ¬ (k + 1) * binade + f < binade := by
    have : binade ≤ (k + 1) * binade := Nat.le_mul_of_pos_left binade (Nat.succ_pos k)
    omega
  rw [units, if_neg hge, Nat.mul_comm (k + 1) binade, Nat.mul_add_mod, Nat.mod_eq_of_lt hf,
    Nat.mul_add_div hb, Nat.div_eq_of_lt hf]
  simp

/-- The next magnitude stands for a greater value. -/
theorem units_lt_units_succ (b : Nat) : units b < units (b + 1) := by
  have hb : 0 < binade := by decide
  by_cases h : b + 1 < binade
  · rw [units_of_lt h, units_of_lt (Nat.lt_of_succ_lt h)]
    exact Nat.lt_succ_self b
  · by_cases hlast : b < binade
    · have : b + 1 = (0 + 1) * binade + 0 := by omega
      rw [this, units_binade 0 0 hb, units_of_lt hlast]
      omega
    · obtain ⟨k, hk⟩ : ∃ k, b / binade = k + 1 :=
        ⟨b / binade - 1, by have := Nat.div_pos (Nat.le_of_not_lt hlast) hb; omega⟩
      have hf := Nat.mod_lt b hb
      have hdecomp : b = (k + 1) * binade + b % binade := by
        rw [← hk, Nat.mul_comm]
        exact (Nat.div_add_mod b binade).symm
      generalize b % binade = f at hf hdecomp
      subst hdecomp
      have hpos : 0 < 2 ^ k := Nat.two_pow_pos k
      by_cases hend : f + 1 < binade
      · rw [Nat.add_assoc, units_binade k _ hend, units_binade k f hf, Nat.shiftLeft_eq,
          Nat.shiftLeft_eq]
        exact Nat.mul_lt_mul_of_pos_right (by omega) hpos
      · have hnext : (k + 1) * binade + f + 1 = (k + 1 + 1) * binade + 0 := by
          rw [Nat.add_mul (k + 1) 1]
          omega
        rw [hnext, units_binade (k + 1) 0 hb, units_binade k f hf, Nat.shiftLeft_eq,
          Nat.shiftLeft_eq, Nat.pow_succ, Nat.mul_comm (2 ^ k) 2, ← Nat.mul_assoc]
        exact Nat.mul_lt_mul_of_pos_right (by omega) hpos

/-- Greater magnitudes stand for greater values. -/
theorem units_lt_units {a b : Nat} (h : a < b) : units a < units b := by
  induction h with
  | refl => exact units_lt_units_succ a
  | step _ ih => exact Nat.lt_trans ih (units_lt_units_succ _)

end LineCalc.Binary64
