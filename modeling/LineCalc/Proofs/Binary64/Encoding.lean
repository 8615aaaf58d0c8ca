import LineCalc.Binary64.Basic
import Mathlib
/-!
# LineCalc.Proofs.Binary64.Encoding

The **bits of a number** are its sign and its magnitude, side by side.

A float keeps the bits it is made of, except that all NaNs become one. No magnitude up to
`infinity` belongs to a NaN, so `ofMagnitude` gives a number with the very sign and magnitude
that it was made of (`toNat_toBits_ofMagnitude`).

That packing undoes unpacking (`pack_unpack_of_valid`) is a lemma of
`Batteries.Data.Float.Lemmas`, which no module of Mathlib imports but `Mathlib` itself; so all of
it is imported here.
-/

namespace LineCalc.Binary64

open Float.Model Float.Model.UnpackedFloat

theorem infinity_eq : infinity = 0x7ff0000000000000 := rfl

theorem signBit_eq : signBit = 0x8000000000000000 := rfl

/-- A float keeps its bits, unless they are those of another NaN. -/
theorem toBits_ofBits {bits : UInt64} (h : Format.binary64.Valid bits.toBitVec) :
    (Float.ofBits bits).toBits = bits := by
  unfold Float.ofBits Float.toBits Float.Model.ofBits Float.Model.pack
  dsimp only
  rw [pack_unpack_of_valid h]

theorem toNat_toBits (x : Float) :
    x.toBits.toNat = (if isNegative x then signBit else 0) + magnitude x := by
  have hsize : x.toBits.toNat < 0x10000000000000000 := x.toBits.toNat_lt
  unfold isNegative magnitude
  rw [signBit_eq]
  simp only [decide_eq_true_eq]
  split <;> omega

/-- A number is nothing but its sign and its magnitude. -/
theorem eq_of_isNegative_of_magnitude {x y : Float} (hsign : isNegative x = isNegative y)
    (hmagnitude : magnitude x = magnitude y) : x = y := by
  rw [← Float.toBits_inj, ← UInt64.toNat_inj, toNat_toBits x, toNat_toBits y, hsign, hmagnitude]

variable (negative : Bool) {m : Nat}

theorem toNat_bits (h : m ≤ infinity) :
    ((if negative then signBit else 0) + m).toUInt64.toNat
      = (if negative then signBit else 0) + m := by
  rw [Nat.toUInt64_eq, UInt64.toNat_ofNat_of_lt']
  have hsize : UInt64.size = 0x10000000000000000 := rfl
  rw [infinity_eq] at h
  rw [signBit_eq]
  split <;> omega

/-- With the exponent of the NaNs, no fraction is left for a magnitude up to infinity. -/
theorem valid_bits (h : m ≤ infinity) :
    Format.binary64.Valid ((if negative then signBit else 0) + m).toUInt64.toBitVec := by
  constructor
  intro hexponent hmantissa
  have hbits := toNat_bits negative h
  rw [← UInt64.toNat_toBitVec] at hbits
  replace hexponent := congrArg BitVec.toNat hexponent
  rw [unpackExponent_def, BitVec.extractLsb'_toNat, hbits, Nat.shiftRight_eq_div_pow] at hexponent
  replace hexponent :
      ((if negative then signBit else 0) + m) / 0x10000000000000 % 0x800 = 0x7ff := hexponent
  have hzero : ((if negative then signBit else 0) + m) % 0x10000000000000 = 0 := by
    rw [infinity_eq] at h
    rw [signBit_eq] at hexponent ⊢
    cases negative with
    | false => simp only [Bool.false_eq_true, if_false] at hexponent ⊢; omega
    | true => simp only [if_true] at hexponent ⊢; omega
  refine absurd (BitVec.eq_of_toNat_eq ?_) hmantissa
  rw [unpackMantissa_def, BitVec.extractLsb'_toNat, hbits]
  exact hzero

/-- The bits of a number that is made of a sign and a magnitude. -/
theorem toNat_toBits_ofMagnitude (h : m ≤ infinity) :
    (ofMagnitude negative m).toBits.toNat = (if negative then signBit else 0) + m := by
  rw [ofMagnitude, toBits_ofBits (valid_bits negative h), toNat_bits negative h]

@[simp] theorem magnitude_ofMagnitude (h : m ≤ infinity) :
    magnitude (ofMagnitude negative m) = m := by
  rw [magnitude, toNat_toBits_ofMagnitude negative h]
  rw [infinity_eq] at h
  rw [signBit_eq]
  split <;> omega

@[simp] theorem isNegative_ofMagnitude (h : m ≤ infinity) :
    isNegative (ofMagnitude negative m) = negative := by
  rw [isNegative, toNat_toBits_ofMagnitude negative h]
  rw [infinity_eq] at h
  rw [signBit_eq]
  cases negative with
  | false => simpa using by omega
  | true => simp

/-- It is never a NaN. -/
theorem isNaN_ofMagnitude (h : m ≤ infinity) : (ofMagnitude negative m).isNaN = false := by
  rw [← Bool.not_eq_true]
  intro hnan
  have hbits : (ofMagnitude negative m).toBits.toBitVec = packedNaN Format.binary64 :=
    (isNaN_unpack_iff_of_valid (ofMagnitude negative m).toModel.valid).mp hnan
  replace hbits := congrArg BitVec.toNat hbits
  rw [UInt64.toNat_toBitVec, toNat_toBits_ofMagnitude negative h] at hbits
  replace hbits : (if negative then signBit else 0) + m = 0x7ff8000000000000 := hbits
  rw [infinity_eq] at h
  rw [signBit_eq] at hbits
  split at hbits <;> omega

end LineCalc.Binary64
