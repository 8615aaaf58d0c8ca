import LineCalc.Proofs.Binary64.Encoding
import LineCalc.Proofs.Binary64.Nearest
/-!
# LineCalc.Proofs.Binary64.Rounding

**Correct rounding** of a rational number, in terms of the fields of the number that is given.

A magnitude has an exponent field and a significand; `ofFields` is the value that they stand for.
`IsRounded negative q x` says everything about the sign, the exponent and the significand of the
binary64 number `x` that `q` with the given sign is rounded to. `nearest` rounds correctly
(`isRounded_nearest`). Nothing else could: there is one number only that is correctly rounded
(`IsRounded.unique`).
-/

namespace LineCalc.Binary64

/-! ### The fields of a magnitude -/

/-- The significand. Its leading bit is not written, and is there unless the exponent field is
zero. -/
def significand (m : ℕ) : ℕ := if m / binade = 0 then m % binade else binade + m % binade

/-- The exponent of the last bit of the significand. An exponent field of zero stands for the
same exponent as one. -/
def lastExponent (m : ℕ) : ℤ := max (m / binade : ℕ) 1 - 1075

/-- The value that the fields of a finite magnitude stand for. -/
def ofFields (m : ℕ) : ℚ := significand m * 2 ^ lastExponent m

theorem ofFields_eq (m : ℕ) : ofFields m = units m / 2 ^ unitExponent := by
  have hunit : (2 : ℚ) ^ unitExponent ≠ 0 := by positivity
  rw [ofFields, eq_div_iff hunit, mul_assoc]
  rcases lt_or_ge m binade with hm | hm
  · have hfield : m / binade = 0 := Nat.div_eq_of_lt hm
    have hexp : (2 : ℚ) ^ lastExponent m * 2 ^ unitExponent = 1 := by
      rw [lastExponent, hfield, ← zpow_natCast, ← zpow_add₀ two_ne_zero]
      rfl
    rw [hexp, mul_one, significand, if_pos hfield, Nat.mod_eq_of_lt hm, units_of_lt hm]
  · have hfield : 0 < m / binade := Nat.div_pos hm (by decide)
    have hexp : (2 : ℚ) ^ lastExponent m * 2 ^ unitExponent = 2 ^ (m / binade - 1) := by
      rw [← zpow_natCast, ← zpow_natCast, ← zpow_add₀ two_ne_zero]
      congr 1
      rw [lastExponent, unitExponent]
      omega
    rw [hexp, significand, if_neg hfield.ne', units, if_neg (not_lt.mpr hm), Nat.shiftLeft_eq]
    push_cast
    rfl

theorem significand_mod_two (m : ℕ) : significand m % 2 = m % 2 := by
  unfold significand binade
  split <;> omega

/-! ### Rounding -/

/-- `IsRounded negative q x`: the sign of `x` is the given one, and its size is `q` rounded to
the nearest value, a tie going to the even significand. What is not below the midpoint between
the greatest finite value and `2 ^ 1024` goes to infinity. -/
structure IsRounded (negative : Bool) (q : ℚ) (x : Float) : Prop where
  isNaN : x.isNaN = false
  sign : isNegative x = negative
  magnitude_le : magnitude x ≤ infinity
  infinity_iff : magnitude x = infinity ↔ 2 ^ 1024 - 2 ^ 970 ≤ q
  nearest : magnitude x ≠ infinity → ∀ n < infinity,
    |q - ofFields (magnitude x)| ≤ |q - ofFields n|
  even_of_tie : magnitude x ≠ infinity → ∀ n < infinity, n ≠ magnitude x →
    |q - ofFields (magnitude x)| = |q - ofFields n| → significand (magnitude x) % 2 = 0
  zero_iff : magnitude x = 0 ↔ q ≤ 2 ^ (-1075 : ℤ)

/-! ### In units -/

section Units

variable (q : ℚ)

theorem abs_sub_ofFields (m : ℕ) :
    |q - ofFields m| = |q * 2 ^ unitExponent - units m| / 2 ^ unitExponent := by
  have hunit : (0 : ℚ) < 2 ^ unitExponent := by positivity
  rw [ofFields_eq]
  generalize (2 : ℚ) ^ unitExponent = unit at hunit ⊢
  have hscale : q - units m / unit = (q * unit - units m) / unit := by field_simp
  rw [hscale, abs_div, abs_of_pos hunit]

/-- Distances compare in units as they do in values. -/
theorem abs_sub_ofFields_le_iff (m n : ℕ) :
    |q - ofFields m| ≤ |q - ofFields n|
      ↔ |q * 2 ^ unitExponent - units m| ≤ |q * 2 ^ unitExponent - units n| := by
  have hunit : (0 : ℚ) < 2 ^ unitExponent := by positivity
  rw [abs_sub_ofFields, abs_sub_ofFields, div_le_div_iff_of_pos_right hunit]

theorem abs_sub_ofFields_eq_iff (m n : ℕ) :
    |q - ofFields m| = |q - ofFields n|
      ↔ |q * 2 ^ unitExponent - units m| = |q * 2 ^ unitExponent - units n| := by
  rw [le_antisymm_iff, abs_sub_ofFields_le_iff, abs_sub_ofFields_le_iff, ← le_antisymm_iff]

/-- Twice the midpoint that separates the finite magnitudes from `infinity`. -/
theorem units_infinity {m : ℕ} (h : m + 1 = infinity) :
    (units m + units (m + 1) : ℚ) = 2 * ((2 ^ 1024 - 2 ^ 970) * 2 ^ unitExponent) := by
  obtain rfl : m = 2045 * binade + (2 * binade - 1) := Nat.succ.inj h
  have hnext : 2045 * binade + (2 * binade - 1) + 1 = 2045 * binade + 2 * binade := by decide
  have hsignificands : ((2 * binade - 1 : ℕ) + (2 * binade : ℕ) : ℚ) = 2 ^ 54 - 1 := by
    norm_num [binade]
  have hunit : (2 : ℚ) * 2 ^ unitExponent = 2 ^ 1075 := (pow_succ' 2 1074).symm
  rw [hnext, cast_units_spaced (.inr (by decide)) (by decide),
    cast_units_spaced (.inr (by decide)) (by decide), ← add_mul]
  calc ((2 * binade - 1 : ℕ) + (2 * binade : ℕ) : ℚ) * 2 ^ 2045
      = (2 ^ 54 - 1) * 2 ^ 970 * 2 ^ 1075 := by rw [hsignificands, mul_assoc, ← pow_add]
    _ = (2 ^ 1024 - 2 ^ 970) * 2 ^ 1075 := by rw [sub_mul, one_mul, ← pow_add]
    _ = 2 * ((2 ^ 1024 - 2 ^ 970) * 2 ^ unitExponent) := by rw [← hunit, mul_left_comm]

/-- Twice the midpoint that separates zero from the other magnitudes. -/
theorem units_zero_add_units_one :
    (units 0 + units 1 : ℚ) = 2 * (2 ^ (-1075 : ℤ) * 2 ^ unitExponent) := by
  rw [units_zero, units_of_lt (by decide), mul_left_comm, ← pow_succ', ← zpow_natCast,
    ← zpow_add₀ two_ne_zero]
  norm_num [unitExponent]

end Units

namespace RoundsTo

variable {q : ℚ} {b : ℕ}

/-- What is rounded to `infinity` and behind it. -/
theorem infinity_le_iff (h : RoundsTo (q * 2 ^ unitExponent) b) :
    infinity ≤ b ↔ 2 ^ 1024 - 2 ^ 970 ≤ q := by
  have hunit : (0 : ℚ) < 2 ^ unitExponent := by positivity
  have hlast : infinity - 1 + 1 = infinity := by decide
  rw [← not_lt, ← not_lt, not_iff_not, ← hlast, Nat.lt_succ_iff, h.le_iff_of_odd (by decide),
    units_infinity hlast, mul_lt_mul_iff_right₀ two_pos, mul_lt_mul_iff_left₀ hunit]

/-- What is rounded to zero. -/
theorem eq_zero_iff (h : RoundsTo (q * 2 ^ unitExponent) b) :
    b = 0 ↔ q ≤ 2 ^ (-1075 : ℤ) := by
  have hunit : (0 : ℚ) < 2 ^ unitExponent := by positivity
  rw [← Nat.le_zero, h.le_iff_of_even rfl, units_zero_add_units_one,
    mul_le_mul_iff_right₀ two_pos, mul_le_mul_iff_left₀ hunit]

end RoundsTo

theorem exists_roundsTo_nearest (num : ℕ) {den : ℕ} (hden : 0 < den) :
    ∃ b, RoundsTo (num / den * 2 ^ unitExponent) b ∧ nearest num den = min infinity b := by
  obtain ⟨b, hb, hnearest⟩ := exists_roundsTo (num <<< unitExponent) hden
  refine ⟨b, ?_, hnearest⟩
  rwa [Nat.shiftLeft_eq, Nat.cast_mul, mul_div_right_comm, Nat.cast_pow, Nat.cast_ofNat] at hb

/-- A number made by `nearest` is correctly rounded. -/
theorem isRounded_nearest (negative : Bool) (num : ℕ) {den : ℕ} (hden : 0 < den) :
    IsRounded negative (num / den) (ofMagnitude negative (nearest num den)) := by
  obtain ⟨b, hb, hnearest⟩ := exists_roundsTo_nearest num hden
  have hle : nearest num den ≤ infinity := by rw [hnearest]; exact min_le_left _ _
  have hfinite (h : nearest num den ≠ infinity) : nearest num den = b := by
    rw [hnearest] at h ⊢
    omega
  have hpos : 0 < infinity := by decide
  refine ⟨isNaN_ofMagnitude negative hle, isNegative_ofMagnitude negative hle, ?_, ?_, ?_, ?_, ?_⟩
    <;> rw [magnitude_ofMagnitude negative hle]
  · exact hle
  · rw [← hb.infinity_le_iff, hnearest, min_eq_left_iff]
  · intro h n _
    rw [hfinite h, abs_sub_ofFields_le_iff]
    exact hb.nearest n
  · intro h n _ hne htie
    rw [hfinite h] at hne htie ⊢
    rw [significand_mod_two, hb.even_of_tie hne ((abs_sub_ofFields_eq_iff _ b n).mp htie)]
  · rw [← hb.eq_zero_iff, hnearest]
    omega

/-- The midpoint of two neighbours goes to the even one. -/
example : nearest 9007199254740993 1 = nearest 9007199254740992 1 := by decide +kernel

/-- A digit two hundred places behind the point takes it off the midpoint. -/
example : nearest (9007199254740993 * Nat.pow 10 200 + 1) (Nat.pow 10 200)
    = nearest 9007199254740994 1 := by decide +kernel

namespace IsRounded

variable {negative : Bool} {q : ℚ} {x y : Float}

/-- A finite number that is correctly rounded is the one whose interval has the value. -/
theorem roundsTo (h : IsRounded negative q x) (hq : 0 ≤ q) (hx : magnitude x ≠ infinity) :
    RoundsTo (q * 2 ^ unitExponent) (magnitude x) := by
  have hlt := lt_of_le_of_ne h.magnitude_le hx
  have hnearest := h.nearest hx
  have heven := h.even_of_tie hx
  have hunit : (0 : ℚ) < 2 ^ unitExponent := by positivity
  have hnonneg : 0 ≤ q * 2 ^ unitExponent := by positivity
  have hoverflow : q * 2 ^ unitExponent < (2 ^ 1024 - 2 ^ 970) * 2 ^ unitExponent :=
    mul_lt_mul_of_pos_right (not_le.mp (h.infinity_iff.not.mp hx)) hunit
  simp only [significand_mod_two, abs_sub_ofFields_le_iff, abs_sub_ofFields_eq_iff]
    at hnearest heven
  -- the last finite magnitude has no finite neighbour above it, so what is known there is that
  -- nothing has overflowed
  generalize q * 2 ^ unitExponent = value at *
  generalize magnitude x = m at *
  have hlow : m = 0 ∨ (units (m - 1) : ℚ) < units m :=
    or_iff_not_imp_left.mpr fun hm => cast_units_lt (by omega)
  have hhigh := cast_units_lt (Nat.lt_succ_self m)
  refine ⟨?_, ?_, fun htie => ?_, fun htie => ?_⟩
  · rcases hlow with rfl | hlow
    · rw [Nat.zero_sub, units_zero, Nat.cast_zero]
      linarith
    · exact (abs_sub_high_le_iff hlow).mp (hnearest (m - 1) (by omega))
  · rcases Nat.lt_or_ge (m + 1) infinity with hm | hm
    · exact (abs_sub_low_le_iff hhigh).mp (hnearest (m + 1) hm)
    · rw [units_infinity (by omega)]
      exact mul_le_mul_of_nonneg_left hoverflow.le two_pos.le
  · rcases hlow with rfl | hlow
    · rfl
    · refine heven (m - 1) (by omega) (fun hm => ?_) ((abs_sub_eq_iff hlow).mpr htie)
      rw [hm] at hlow
      exact lt_irrefl _ hlow
  · rcases Nat.lt_or_ge (m + 1) infinity with hm | hm
    · exact heven (m + 1) hm (Nat.succ_ne_self m) ((abs_sub_eq_iff hhigh).mpr htie).symm
    · rw [units_infinity (by omega)] at htie
      exact absurd (mul_left_cancel₀ two_ne_zero htie) hoverflow.ne

/-- There is one number only that is correctly rounded. -/
theorem unique (hx : IsRounded negative q x) (hq : 0 ≤ q) (hy : IsRounded negative q y) :
    x = y := by
  refine eq_of_isNegative_of_magnitude (by rw [hx.sign, hy.sign]) ?_
  by_cases hinf : magnitude x = infinity
  · rw [hinf, hy.infinity_iff.mpr (hx.infinity_iff.mp hinf)]
  · have hinf' : magnitude y ≠ infinity := by
      rw [ne_eq, hy.infinity_iff, ← hx.infinity_iff]
      exact hinf
    exact (hx.roundsTo hq hinf).unique (hy.roundsTo hq hinf')

end IsRounded

end LineCalc.Binary64
