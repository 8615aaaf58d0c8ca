import LineCalc.Number
import LineCalc.Proofs.Message
/-!
# LineCalc.Proofs.Binary64.Display

The bytes that **numbers are written with**: digits, small letters, points and signs, and always
a digit or a letter among them (`Number.isNumeric_text`). So no number is written as nothing, with
a space, or as an operator is.
-/

namespace LineCalc

open Bytes (ofString ofNat)

namespace Byte

/-- A digit or a small letter. -/
def isAlphanumeric (b : UInt8) : Bool := isDigit b || (0x61 ≤ b && b ≤ 0x7a)

/-- A byte that numbers are written with; the last one is the plus of an exponent. -/
def isNumeric (b : UInt8) : Bool := isAlphanumeric b || [point, hyphen, 0x2b].contains b

theorem isAlphanumeric_of_isDigit {b : UInt8} (h : isDigit b) : isAlphanumeric b := by
  rw [isAlphanumeric, h, Bool.true_or]

theorem isNumeric_of_isDigit {b : UInt8} (h : isDigit b) : isNumeric b := by
  rw [isNumeric, isAlphanumeric_of_isDigit h, Bool.true_or]

end Byte

namespace Bytes

/-- What every text of a number is like. -/
structure IsNumeric (text : Bytes) : Prop where
  all : text.all Byte.isNumeric
  any : text.any Byte.isAlphanumeric

namespace IsNumeric

variable {s t : Bytes}

theorem append_left (hs : s.all Byte.isNumeric) (ht : IsNumeric t) : IsNumeric (s ++ t) where
  all := by rw [List.all_append, hs, ht.all, Bool.true_and]
  any := by rw [List.any_append, ht.any, Bool.or_true]

theorem append_right (hs : IsNumeric s) (ht : t.all Byte.isNumeric) : IsNumeric (s ++ t) where
  all := by rw [List.all_append, hs.all, ht, Bool.true_and]
  any := by rw [List.any_append, hs.any, Bool.true_or]

theorem ne_nil (h : IsNumeric t) : t ≠ [] := by
  rintro rfl
  cases h.any

/-- A byte that no number is written with is not found in the text of one. -/
theorem notMem (h : IsNumeric t) {b : UInt8} (hb : Byte.isNumeric b = false) : b ∉ t := by
  intro hmem
  rw [List.all_eq_true.mp h.all b hmem] at hb
  cases hb

end IsNumeric

theorem ofNat_ne_nil (n : Nat) : ofNat n ≠ [] := by
  intro hnil
  have hsize : n.repr.utf8ByteSize = 0 := congrArg List.length hnil
  exact Nat.repr_ne_empty (String.utf8ByteSize_eq_zero_iff.mp hsize)

theorem isNumeric_ofNat (n : Nat) : IsNumeric (ofNat n) where
  all := List.all_eq_true.mpr fun _ hb => Byte.isNumeric_of_isDigit (isDigit_of_mem_ofNat hb)
  any := by
    obtain ⟨b, rest, hdigits⟩ := List.exists_cons_of_ne_nil (ofNat_ne_nil n)
    have hb : b ∈ ofNat n := by
      rw [hdigits]
      exact List.mem_cons_self
    exact List.any_eq_true.mpr ⟨b, hb, Byte.isAlphanumeric_of_isDigit (isDigit_of_mem_ofNat hb)⟩

end Bytes

namespace Binary64

open Bytes (IsNumeric)

theorem all_isNumeric_zeros (n : Nat) : (zeros n).all Byte.isNumeric := by
  have hzero : Byte.isNumeric (Byte.ofDigit 0) := by decide
  rw [zeros, List.all_replicate, hzero, ite_self]

theorem isNumeric_withPoint {digits : Bytes} (h : IsNumeric digits) (places : Nat) :
    IsNumeric (withPoint places digits) := by
  unfold withPoint
  split
  · exact h
  · have hsplit := List.take_append_drop places digits
    obtain ⟨hall, hany⟩ := h
    rw [← hsplit, List.all_append] at hall
    rw [← hsplit, List.any_append] at hany
    constructor
    · rw [List.all_append, List.all_cons, show Byte.isNumeric Byte.point by decide, Bool.true_and]
      exact hall
    · rw [List.any_append, List.any_cons, show Byte.isAlphanumeric Byte.point = false by decide,
        Bool.false_or]
      exact hany

theorem all_isNumeric_exponentText (e : Int) : (exponentText e).all Byte.isNumeric := by
  have hstart : (ofString (if e < 0 then "e-" else "e+")).all Byte.isNumeric := by
    split <;> decide
  rw [exponentText, List.all_append, List.all_append, hstart, all_isNumeric_zeros,
    (Bytes.isNumeric_ofNat _).all, Bool.and_self, Bool.and_self]

theorem Decimal.isNumeric_text (d : Decimal) : IsNumeric d.text := by
  have hdigits := Bytes.isNumeric_ofNat d.coefficient
  unfold Decimal.text
  dsimp only
  split
  · split
    · exact isNumeric_withPoint (hdigits.append_left (all_isNumeric_zeros _)) _
    · exact isNumeric_withPoint (hdigits.append_right (all_isNumeric_zeros _)) _
  · exact (isNumeric_withPoint hdigits _).append_right (all_isNumeric_exponentText _)

theorem isNumeric_text (x : Float) : IsNumeric (text x) := by
  have hsize : IsNumeric (
      if magnitude x = infinity then ofString "inf"
      else if magnitude x = 0 then ofString "0"
      else (shortest (magnitude x)).text) := by
    split
    · exact ⟨by decide, by decide⟩
    · split
      · exact ⟨by decide, by decide⟩
      · exact (shortest (magnitude x)).isNumeric_text
  have hhyphen : [Byte.hyphen].all Byte.isNumeric := by decide
  unfold text
  split
  · exact ⟨by decide, by decide⟩
  · dsimp only
    split
    · exact hsize.append_left hhyphen
    · exact hsize

end Binary64

theorem Number.isNumeric_text (x : Number) : Bytes.IsNumeric x.text :=
  Binary64.isNumeric_text x.toFloat

/-- All NaNs are written alike, whatever their sign and kind. -/
theorem Number.text_of_isNaN {x : Number} (h : x.toFloat.isNaN) : x.text = ofString "nan" := by
  rw [text, Binary64.text, if_pos h]

end LineCalc
