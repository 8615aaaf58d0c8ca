import LineCalc.Proofs.Binary64.Rounding
import LineCalc.Proofs.Sentence
import Mathlib.Logic.Relation
/-!
# LineCalc.Proofs.Literal.Value

The **value of a literal** is the correctly rounded value of the decimal that its digits denote.

`Literal.exact` reads the digits by place, each times its power of ten. It is the quotient that
`Literal.value` rounds (`exact_eq`), so the value is correctly rounded (`isRounded_value`), and it
does not depend on how the decimal is spelled: what `Respelled` does to a literal changes neither
its sign nor its exact value.
-/

namespace LineCalc

namespace Literal

open Binary64 (zeros IsRounded)

/-! ### The exact value -/

/-- The sum of the digits, each times the power of ten of its place. The first one is at
`place`. -/
def placeValue (place : ℤ) : Bytes → ℚ
  | [] => 0
  | d :: ds => Byte.digitValue d * 10 ^ place + placeValue (place - 1) ds

/-- The decimal that a literal denotes, without its sign. -/
def exact (l : Literal) : ℚ :=
  placeValue (l.whole.length - 1) l.whole + placeValue (-1) (l.fraction.getD [])

theorem placeValue_append (place : ℤ) (s t : Bytes) :
    placeValue place (s ++ t) = placeValue place s + placeValue (place - s.length) t := by
  induction s generalizing place with
  | nil => simp [placeValue]
  | cons d s ih =>
    rw [List.cons_append, placeValue, placeValue, ih, add_assoc, List.length_cons]
    congr 3
    push_cast
    ring

theorem placeValue_zeros (place : ℤ) (n : ℕ) : placeValue place (zeros n) = 0 := by
  have hzero : Byte.digitValue (Byte.ofDigit 0) = 0 := by decide
  induction n generalizing place with
  | zero => rfl
  | succ n ih =>
    have hcons : zeros (n + 1) = Byte.ofDigit 0 :: zeros n := rfl
    rw [hcons, placeValue, ih, hzero, Nat.cast_zero, zero_mul, zero_add]

theorem placeValue_eq (place : ℤ) (s : Bytes) :
    placeValue place s = digitsValue s * 10 ^ (place + 1 - s.length) := by
  induction s using List.reverseRecOn with
  | nil => simp [placeValue, digitsValue]
  | append_singleton s d ih =>
    have hdigits : digitsValue (s ++ [d]) = 10 * digitsValue s + Byte.digitValue d := by
      simp [digitsValue]
    have hplace : place + 1 - (s ++ [d]).length = place - s.length := by
      rw [List.length_append, List.length_singleton]
      push_cast
      ring
    have hten : (10 : ℚ) ^ (place + 1 - s.length) = 10 * 10 ^ (place - s.length) := by
      rw [add_sub_right_comm, zpow_add_one₀ (by norm_num), mul_comm]
    rw [placeValue_append, ih, hdigits, hplace, hten, placeValue, placeValue]
    push_cast
    ring

/-- The places go on behind the point. -/
theorem exact_eq (l : Literal) : l.exact = l.num / l.den := by
  have hpoint : l.exact = placeValue (l.whole.length - 1) l.digits := by
    rw [digits, placeValue_append, exact, sub_sub_cancel_left]
  have hplace : (l.whole.length - 1 + 1 - l.digits.length : ℤ) = -(l.fraction.getD []).length := by
    rw [digits, List.length_append]
    push_cast
    ring
  rw [hpoint, placeValue_eq, hplace, zpow_neg, zpow_natCast, ← div_eq_mul_inv, num, den,
    Nat.pow_eq, Nat.cast_pow, Nat.cast_ofNat]

/-- A literal has the correctly rounded value of the decimal that it denotes. -/
theorem isRounded_value (l : Literal) : IsRounded l.isNegative l.exact l.value := by
  rw [exact_eq]
  exact Binary64.isRounded_nearest l.isNegative l.num l.den_pos

theorem exact_nonneg (l : Literal) : 0 ≤ l.exact := by
  rw [exact_eq]
  positivity

/-! ### Other spellings -/

/-- `Respelled l l'`: `l'` is written with something added to `l` that does not count. -/
inductive Respelled (l l' : Literal) : Prop
  /-- Zeros in front of the digits. -/
  | leadingZeros (n : ℕ) (hsign : l'.sign = l.sign) (hwhole : l'.whole = zeros n ++ l.whole)
    (hfraction : l'.fraction = l.fraction)
  /-- A plus where there is no sign. -/
  | plus (hnone : l.sign = none) (hsign : l'.sign = some .plus) (hwhole : l'.whole = l.whole)
    (hfraction : l'.fraction = l.fraction)
  /-- A point where there is none. -/
  | point (hsign : l'.sign = l.sign) (hwhole : l'.whole = l.whole) (hnone : l.fraction = none)
    (hfraction : l'.fraction = some [])
  /-- Zeros behind the digits of the fraction. -/
  | trailingZeros (n : ℕ) (hsign : l'.sign = l.sign) (hwhole : l'.whole = l.whole)
    {digits : Bytes} (hdigits : l.fraction = some digits)
    (hfraction : l'.fraction = some (digits ++ zeros n))

namespace Respelled

variable {l l' : Literal}

theorem isNegative_eq (h : Respelled l l') : l'.isNegative = l.isNegative := by
  cases h with
  | plus hnone hsign => rw [isNegative, isNegative, hnone, hsign]; rfl
  | _ => simp_all [isNegative]

theorem exact_eq (h : Respelled l l') : l'.exact = l.exact := by
  cases h with
  | leadingZeros n _ hwhole hfraction =>
    have hplace :
        ((zeros n ++ l.whole).length - 1 - (zeros n).length : ℤ) = l.whole.length - 1 := by
      rw [List.length_append]
      push_cast
      ring
    rw [exact, exact, hwhole, hfraction, placeValue_append, placeValue_zeros, zero_add, hplace]
  | plus _ _ hwhole hfraction => rw [exact, exact, hwhole, hfraction]
  | point _ hwhole hnone hfraction => rw [exact, exact, hwhole, hnone, hfraction]; rfl
  | trailingZeros n _ hwhole hdigits hfraction =>
    rw [exact, exact, hwhole, hdigits, hfraction, Option.getD_some, placeValue_append,
      placeValue_zeros, add_zero, Option.getD_some]

/-- The value is the same number, down to the last bit. -/
theorem value_eq (h : Respelled l l') : l'.value = l.value := by
  have hvalue := l'.isRounded_value
  rw [h.isNegative_eq, h.exact_eq] at hvalue
  exact hvalue.unique l.exact_nonneg l.isRounded_value

/-- What cannot go on with a literal cannot go on with another spelling of it. -/
theorem stops (h : Respelled l l') {rest : Bytes} (hstops : Stops l.fraction rest) :
    Stops l'.fraction rest := by
  intro b hb
  refine ⟨(hstops b hb).1, fun hnone => (hstops b hb).2 ?_⟩
  cases h with
  | leadingZeros _ _ _ hfraction => rw [← hfraction, hnone]
  | plus _ _ _ hfraction => rw [← hfraction, hnone]
  | point _ _ hnone' _ => exact hnone'
  | trailingZeros _ _ _ _ hfraction =>
    rw [hnone] at hfraction
    contradiction

end Respelled

/-- A minus is what a literal starts with, and nothing else that it starts with is a hyphen. -/
theorem head?_text (l : Literal) : (l.text.head? == some Byte.hyphen) = l.isNegative := by
  obtain ⟨d, ds, hwhole, hd⟩ := l.exists_whole_eq_cons
  rw [text, hwhole, isNegative]
  cases l.sign with
  | some s => cases s <;> rfl
  | none =>
    have hne : d ≠ Byte.hyphen := by
      rintro rfl
      exact absurd hd (by decide)
    simp [signText, hne]

end Literal

/-! ### The operand that is read -/

namespace Lexer

/-- The lexer reads a literal, wherever it stands, as the correctly rounded value of the decimal
that it denotes, and reads the same number off every other spelling of it. -/
theorem next_literal_isRounded (l : Literal) {blanks rest : Bytes}
    (hblanks : blanks.all Byte.isBlank) (hstops : Literal.Stops l.fraction rest) (p : ℕ) :
    ∃ x : Float, (next ⟨blanks ++ (l.text ++ rest), p, .operand⟩).1 = .ok (.number (.plain x)) ∧
      Binary64.IsRounded (l.text.head? == some Byte.hyphen) l.exact x ∧
      ∀ l', Relation.ReflTransGen Literal.Respelled l l' →
        (next ⟨blanks ++ (l'.text ++ rest), p, .operand⟩).1 = .ok (.number (.plain x)) := by
  have hread (l' : Literal) (h : Literal.Stops l'.fraction rest) :
      (next ⟨blanks ++ (l'.text ++ rest), p, .operand⟩).1 = .ok (.number (.plain l'.value)) := by
    rw [(Step.number hblanks l' rest h p).next_eq, Literal.number]
  refine ⟨l.value, hread l hstops, ?_, fun l' hspelled => ?_⟩
  · rw [l.head?_text]
    exact l.isRounded_value
  · have hkept : l'.value = l.value ∧ Literal.Stops l'.fraction rest := by
      induction hspelled with
      | refl => exact ⟨rfl, hstops⟩
      | tail _ h ih => exact ⟨h.value_eq.trans ih.1, h.stops ih.2⟩
    rw [hread l' hkept.2, hkept.1]

/-- A zero with a minus, in front of an operator. -/
theorem next_literal_isRounded_negative_zero :
    ∃ (l : Literal) (x : Float), l.text = Bytes.ofString "-0" ∧
      (next ⟨Bytes.ofString " -0*2", 3, .operand⟩).1 = .ok (.number (.plain x)) ∧
      Binary64.isNegative x ∧ Binary64.magnitude x = 0 := by
  let l : Literal := ⟨some .minus, [0x30], none, by decide, by decide, by decide⟩
  have hline : Bytes.ofString " -0*2" = [0x20] ++ (l.text ++ [Op.symbol .mul, 0x32]) := by decide
  obtain ⟨x, hread, hround, -⟩ :=
    @next_literal_isRounded l [0x20] [Op.symbol .mul, 0x32] (by decide) (.symbol .mul [0x32]) 3
  have hexact : l.exact = 0 := by
    rw [l.exact_eq, show l.num = 0 by decide, Nat.cast_zero, zero_div]
  rw [← hline] at hread
  refine ⟨l, x, by decide, hread, hround.sign, hround.zero_iff.mpr ?_⟩
  rw [hexact]
  positivity

end Lexer

end LineCalc
