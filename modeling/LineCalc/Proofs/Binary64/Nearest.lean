import LineCalc.Binary64.Nearest
import Mathlib.Algebra.Order.Field.Rat
import Mathlib.Data.Nat.Log
import Mathlib.Data.Rat.Cast.Order
import Mathlib.Order.Monotone.Basic
import Mathlib.Tactic.FieldSimp
import Mathlib.Tactic.Linarith
import Mathlib.Tactic.Positivity
import Mathlib.Tactic.Ring
/-!
# LineCalc.Proofs.Binary64.Nearest

**Rounding to the nearest** magnitude, measured in units.

The magnitudes cut the line into intervals, from one midpoint between neighbours to the next;
a midpoint goes to the even one of its neighbours. `RoundsTo x b` says that `x` units are in
the interval of `b`. All that is asked of rounding can be read off this: no magnitude is nearer
(`RoundsTo.nearest`), a tie goes to the even one (`RoundsTo.even_of_tie`), and the magnitudes up
to `n` are those that are rounded to in front of the end of its interval
(`RoundsTo.le_iff_of_even`, `RoundsTo.le_iff_of_odd`).

`exists_roundsTo` says that `nearestUnits` rounds in this way, as if there were no greatest
magnitude, and then goes no further than `infinity`.
-/

namespace LineCalc.Binary64

/-! ### Magnitudes and their values -/

theorem strictMono_units : StrictMono units := strictMono_nat_of_lt_succ units_lt_units_succ

theorem cast_units_le {a b : ℕ} (h : a ≤ b) : (units a : ℚ) ≤ units b :=
  Nat.cast_le.mpr (strictMono_units.monotone h)

theorem cast_units_lt {a b : ℕ} (h : a < b) : (units a : ℚ) < units b :=
  Nat.cast_lt.mpr (units_lt_units h)

theorem binade_eq : binade = 2 ^ 52 := rfl

/-- The magnitudes of a binade stand for the multiples of its spacing, and the first of the next
binade goes on with them. -/
theorem units_spaced {k r : ℕ} (hlow : k = 0 ∨ binade ≤ r) (hhigh : r ≤ 2 * binade) :
    units (k * binade + r) = r * 2 ^ k := by
  rcases lt_or_ge r binade with hsub | hnormal
  · obtain rfl : k = 0 := hlow.resolve_right (not_le.mpr hsub)
    rw [Nat.zero_mul, Nat.zero_add, units_of_lt hsub, pow_zero, Nat.mul_one]
  · rcases hhigh.lt_or_eq with hlt | rfl
    · obtain ⟨f, rfl⟩ := Nat.exists_eq_add_of_le hnormal
      have hplace : k * binade + (binade + f) = (k + 1) * binade + f := by ring
      rw [hplace, units_binade k f (by omega), Nat.shiftLeft_eq]
    · have hplace : k * binade + 2 * binade = (k + 1 + 1) * binade + 0 := by ring
      rw [hplace, units_binade (k + 1) 0 (by decide), Nat.shiftLeft_eq]
      ring

/-! ### Intervals -/

section Midpoint

variable {x low high : ℚ} (h : low < high)

include h

/-- A value is nearer to the greater of two others from their midpoint on, -/
theorem abs_sub_high_le_iff : |x - high| ≤ |x - low| ↔ low + high ≤ 2 * x := by
  rw [← sq_le_sq]
  constructor
  · intro hle
    nlinarith
  · intro hle
    nlinarith

/-- and to the smaller up to their midpoint. -/
theorem abs_sub_low_le_iff : |x - low| ≤ |x - high| ↔ 2 * x ≤ low + high := by
  rw [← sq_le_sq]
  constructor
  · intro hle
    nlinarith
  · intro hle
    nlinarith

/-- At the midpoint it is as near to the one as to the other. -/
theorem abs_sub_eq_iff : |x - high| = |x - low| ↔ 2 * x = low + high := by
  rw [le_antisymm_iff, abs_sub_high_le_iff h, abs_sub_low_le_iff h, and_comm, ← le_antisymm_iff]

end Midpoint

/-- `RoundsTo x b`: of the magnitudes, `b` is the one that `x` units round to. They lie between
its midpoints with its neighbours, and are such a midpoint only if `b` is even. -/
structure RoundsTo (x : ℚ) (b : ℕ) : Prop where
  low : (units (b - 1) + units b : ℚ) ≤ 2 * x
  high : 2 * x ≤ units b + units (b + 1)
  even_low : 2 * x = units (b - 1) + units b → b % 2 = 0
  even_high : 2 * x = units b + units (b + 1) → b % 2 = 0

namespace RoundsTo

variable {x : ℚ} {b : ℕ}

/-- No magnitude is nearer. -/
theorem nearest (h : RoundsTo x b) (n : ℕ) : |x - units b| ≤ |x - units n| := by
  rcases lt_trichotomy n b with hn | rfl | hn
  · have hle : (units n : ℚ) ≤ units (b - 1) := cast_units_le (by omega)
    rw [abs_sub_high_le_iff (cast_units_lt hn)]
    linarith [h.low]
  · exact le_refl _
  · have hle : (units (b + 1) : ℚ) ≤ units n := cast_units_le hn
    rw [abs_sub_low_le_iff (cast_units_lt hn)]
    linarith [h.high]

/-- If another magnitude is as near, the even one of the two is taken. -/
theorem even_of_tie (h : RoundsTo x b) {n : ℕ} (hne : n ≠ b)
    (htie : |x - units b| = |x - units n|) : b % 2 = 0 := by
  rcases lt_or_gt_of_ne hne with hn | hn
  · have hle : (units n : ℚ) ≤ units (b - 1) := cast_units_le (by omega)
    have hmid := (abs_sub_eq_iff (cast_units_lt hn)).mp htie
    exact h.even_low (by linarith [h.low])
  · have hle : (units (b + 1) : ℚ) ≤ units n := cast_units_le hn
    have hmid := (abs_sub_eq_iff (cast_units_lt hn)).mp htie.symm
    exact h.even_high (by linarith [h.high])

/-- An even magnitude has the end of its interval. -/
theorem le_iff_of_even (h : RoundsTo x b) {n : ℕ} (hn : n % 2 = 0) :
    b ≤ n ↔ 2 * x ≤ units n + units (n + 1) := by
  constructor
  · intro hle
    linarith [h.high, cast_units_le hle, cast_units_le (Nat.succ_le_succ hle)]
  · intro hx
    by_contra hlt
    have hle : (units n : ℚ) ≤ units (b - 1) := cast_units_le (by omega)
    have hle' : (units (n + 1) : ℚ) ≤ units b := cast_units_le (by omega)
    have heven := h.even_low (by linarith [h.low])
    have hlt' := cast_units_lt (show n < b - 1 by omega)
    linarith [h.low]

/-- An odd magnitude has not. -/
theorem le_iff_of_odd (h : RoundsTo x b) {n : ℕ} (hn : n % 2 = 1) :
    b ≤ n ↔ 2 * x < units n + units (n + 1) := by
  constructor
  · intro hle
    have hle' := cast_units_le hle
    have hle'' := cast_units_le (Nat.succ_le_succ hle)
    refine lt_of_le_of_ne (by linarith [h.high]) fun heq => ?_
    have heven := h.even_high (by linarith [h.high])
    have hlt := cast_units_lt (show b < n by omega)
    linarith [h.high]
  · intro hx
    by_contra hlt
    have hle : (units n : ℚ) ≤ units (b - 1) := cast_units_le (by omega)
    have hle' : (units (n + 1) : ℚ) ≤ units b := cast_units_le (by omega)
    linarith [h.low]

theorem le (h : RoundsTo x b) {n : ℕ} (hn : RoundsTo x n) : b ≤ n := by
  rcases Nat.mod_two_eq_zero_or_one n with heven | hodd
  · exact (h.le_iff_of_even heven).mpr hn.high
  · refine (h.le_iff_of_odd hodd).mpr (lt_of_le_of_ne hn.high fun heq => ?_)
    have heven := hn.even_high heq
    omega

/-- There is one magnitude at most that a value rounds to. -/
theorem unique (h : RoundsTo x b) {n : ℕ} (hn : RoundsTo x n) : b = n :=
  le_antisymm (h.le hn) (hn.le h)

end RoundsTo

/-! ### Rounding -/

section Quotient

variable (num : ℕ) {den : ℕ} (hden : 0 < den)

include hden

/-- What is left of a quotient after rounding it, as a multiple of its denominator. -/
theorem roundHalfEven_remainder :
    (2 * (roundHalfEven num den * den) ≤ 2 * num + den ∧
        2 * num ≤ 2 * (roundHalfEven num den * den) + den) ∧
      (2 * (roundHalfEven num den * den) = 2 * num + den ∨
        2 * num = 2 * (roundHalfEven num den * den) + den → roundHalfEven num den % 2 = 0) := by
  have hsplit := Nat.div_add_mod num den
  have hlt := Nat.mod_lt num hden
  have htie := @roundHalfEven_of_tie num den
  rw [Nat.mul_comm] at hsplit
  rcases roundHalfEven_cases num den with ⟨hr, hmod⟩ | ⟨hr, hmod⟩ <;> rw [hr] at htie ⊢
  · omega
  · rw [Nat.add_mul, Nat.one_mul]
    omega

/-- A quotient is within one half of the natural number that it rounds to, and one half away only
from an even one. -/
theorem roundHalfEven_near :
    (2 * (roundHalfEven num den : ℚ) ≤ 2 * (num / den) + 1 ∧
        2 * (num / den : ℚ) ≤ 2 * roundHalfEven num den + 1) ∧
      (2 * (roundHalfEven num den : ℚ) = 2 * (num / den) + 1 ∨
        2 * (num / den : ℚ) = 2 * roundHalfEven num den + 1 → roundHalfEven num den % 2 = 0) := by
  have hpos : (0 : ℚ) < den := Nat.cast_pos.mpr hden
  have h := roundHalfEven_remainder num hden
  generalize roundHalfEven num den = r at h ⊢
  have hr : 2 * (r : ℚ) = (2 * (r * den) : ℕ) / den := by push_cast; field_simp
  have hr' : 2 * (r : ℚ) + 1 = (2 * (r * den) + den : ℕ) / den := by push_cast; field_simp
  have hy : 2 * (num / den : ℚ) = (2 * num : ℕ) / den := by push_cast; ring
  have hy' : 2 * (num / den : ℚ) + 1 = (2 * num + den : ℕ) / den := by push_cast; field_simp
  rw [hr', hy', hr, hy]
  simpa only [div_le_div_iff_of_pos_right hpos, div_left_inj' hpos.ne', Nat.cast_le,
    Nat.cast_inj] using h

end Quotient

theorem div_shiftLeft_doublings (num den : ℕ) :
    num / (den <<< doublings num den) = num / den / 2 ^ doublings num den := by
  rw [Nat.shiftLeft_eq, Nat.div_div_eq_div_mul]

/-- Measured in the spacing that is found for it, a quotient is not in front of the binade with
that spacing, -/
theorem binade_le_of_doublings (num den : ℕ) :
    doublings num den = 0 ∨ binade ≤ num / (den <<< doublings num den) := by
  rw [div_shiftLeft_doublings, doublings]
  refine or_iff_not_imp_left.mpr fun hk => ?_
  have hpos : num / den ≠ 0 := fun h => hk (by rw [h]; rfl)
  rw [Nat.le_div_iff_mul_le (Nat.two_pow_pos _), binade_eq, ← pow_add,
    Nat.add_sub_cancel' (by omega)]
  exact Nat.log2_self_le hpos

/-- nor behind it. -/
theorem doublings_lt (num den : ℕ) :
    num / (den <<< doublings num den) < 2 * binade := by
  rw [div_shiftLeft_doublings, doublings, Nat.div_lt_iff_lt_mul (Nat.two_pow_pos _), binade_eq,
    ← pow_succ', ← pow_add]
  refine lt_of_lt_of_le Nat.lt_log2_self (Nat.pow_le_pow_right (by decide) (by omega))

section Spaced

variable {y : ℚ} {k r : ℕ}

theorem cast_units_spaced (hlow : k = 0 ∨ binade ≤ r) (hhigh : r ≤ 2 * binade) :
    (units (k * binade + r) : ℚ) = r * 2 ^ k := by
  exact_mod_cast units_spaced hlow hhigh

/-- A value not in front of its binade and at most one half below `r` is not in front of the
interval of `r`. -/
theorem midpoint_le (hy : 0 ≤ y) (hlow : k = 0 ∨ (binade : ℚ) ≤ y) (hrlow : k = 0 ∨ binade ≤ r)
    (hrhigh : r ≤ 2 * binade) (hnear : 2 * (r : ℚ) ≤ 2 * y + 1) :
    (units (k * binade + r - 1) + units (k * binade + r) : ℚ) ≤ 2 * (y * 2 ^ k) ∧
      (2 * (y * 2 ^ k) = units (k * binade + r - 1) + units (k * binade + r) →
        k * binade + r = 0 ∨ 2 * (r : ℚ) = 2 * y + 1) := by
  have hspacing : (0 : ℚ) < 2 ^ k := by positivity
  have hr := cast_units_spaced hrlow hrhigh
  -- below `y` any neighbour will do; above it `r` has a neighbour in the same spacing
  rcases le_or_gt (r : ℚ) y with hry | hry
  · have hle : (r * 2 ^ k : ℚ) ≤ y * 2 ^ k := by gcongr
    have hprev : (units (k * binade + r - 1) : ℚ) ≤ units (k * binade + r) :=
      cast_units_le (Nat.sub_le _ _)
    refine ⟨by linarith, fun h => .inl ?_⟩
    by_contra hne
    have hlt := cast_units_lt (show k * binade + r - 1 < k * binade + r by omega)
    linarith
  · have hr0 : 0 < r := by exact_mod_cast lt_of_le_of_lt hy hry
    obtain ⟨s, rfl⟩ : ∃ s, r = s + 1 := ⟨r - 1, by omega⟩
    have hslow : k = 0 ∨ binade ≤ s :=
      hlow.imp_right fun h => Nat.lt_succ_iff.mp (by exact_mod_cast lt_of_le_of_lt h hry)
    have hprev := cast_units_spaced hslow (by omega)
    rw [show k * binade + (s + 1) - 1 = k * binade + s by omega, hr, hprev, ← add_mul,
      ← mul_assoc]
    rw [Nat.cast_succ] at hnear ⊢
    refine ⟨by gcongr; linarith, fun h => .inr ?_⟩
    linarith [mul_right_cancel₀ hspacing.ne' h]

/-- A value in front of the end of its binade and at most one half above `r` is not behind the
interval of `r`. -/
theorem le_midpoint (hhigh : y < 2 * binade) (hrlow : k = 0 ∨ binade ≤ r)
    (hrhigh : r ≤ 2 * binade) (hnear : 2 * y ≤ 2 * r + 1) :
    2 * (y * 2 ^ k) ≤ (units (k * binade + r) + units (k * binade + r + 1) : ℚ) ∧
      (2 * (y * 2 ^ k) = units (k * binade + r) + units (k * binade + r + 1) →
        2 * y = 2 * r + 1) := by
  have hspacing : (0 : ℚ) < 2 ^ k := by positivity
  have hr := cast_units_spaced hrlow hrhigh
  rcases le_or_gt y r with hyr | hyr
  · have hnext := cast_units_lt (Nat.lt_succ_self (k * binade + r))
    have hle : y * 2 ^ k ≤ r * 2 ^ k := by gcongr
    exact ⟨by linarith, fun h => by linarith⟩
  · have hlt : (r : ℚ) < (2 * binade : ℕ) := by push_cast; linarith
    have hnext := cast_units_spaced (r := r + 1) (k := k) (by omega) (Nat.cast_lt.mp hlt)
    rw [Nat.add_assoc, hr, hnext, ← add_mul, ← mul_assoc]
    push_cast
    refine ⟨by gcongr; linarith, fun h => ?_⟩
    linarith [mul_right_cancel₀ hspacing.ne' h]

/-- A value measured in the spacing of its binade goes to the natural number nearest to it. -/
theorem roundsTo_spaced (hy : 0 ≤ y) (hlow : k = 0 ∨ (binade : ℚ) ≤ y) (hhigh : y < 2 * binade)
    (hnear : 2 * (r : ℚ) ≤ 2 * y + 1 ∧ 2 * y ≤ 2 * r + 1)
    (heven : 2 * (r : ℚ) = 2 * y + 1 ∨ 2 * y = 2 * r + 1 → r % 2 = 0) :
    RoundsTo (y * 2 ^ k) (k * binade + r) := by
  obtain ⟨hbelow, habove⟩ := hnear
  have hparity : (k * binade + r) % 2 = r % 2 := by
    rw [show binade = 2 * 2 ^ 51 from rfl]
    omega
  have hrlow : k = 0 ∨ binade ≤ r := hlow.imp_right fun h => by
    have : (binade : ℚ) < r + 1 := by linarith
    exact Nat.lt_succ_iff.mp (by exact_mod_cast this)
  have hrhigh : r ≤ 2 * binade := by
    have : (r : ℚ) < 2 * binade + 1 := by linarith
    exact Nat.lt_succ_iff.mp (by exact_mod_cast this)
  obtain ⟨hlower, hlower'⟩ := midpoint_le hy hlow hrlow hrhigh hbelow
  obtain ⟨hupper, hupper'⟩ := le_midpoint hhigh hrlow hrhigh habove
  refine ⟨hlower, hupper, fun h => ?_, fun h => ?_⟩
  · rcases hlower' h with hzero | htie
    · rw [hzero]
    · rw [hparity, heven (.inl htie)]
  · rw [hparity, heven (.inr (hupper' h))]

end Spaced

/-- `nearestUnits` rounds to the nearest magnitude, unless that is behind `infinity`. -/
theorem exists_roundsTo (num : ℕ) {den : ℕ} (hden : 0 < den) :
    ∃ b, RoundsTo (num / den) b ∧ nearestUnits num den = min infinity b := by
  refine ⟨_, ?_, rfl⟩
  -- the quotient in the spacing of its binade, which is the one that `roundHalfEven` rounds
  have hlow := binade_le_of_doublings num den
  have hhigh := doublings_lt num den
  generalize doublings num den = k at hlow hhigh ⊢
  have hpos : 0 < den <<< k := by rw [Nat.shiftLeft_eq]; positivity
  have hposQ : (0 : ℚ) < (den <<< k : ℕ) := Nat.cast_pos.mpr hpos
  have hscale : (num / den : ℚ) = num / (den <<< k : ℕ) * 2 ^ k := by
    rw [Nat.shiftLeft_eq]
    push_cast
    field_simp
  obtain ⟨hnear, heven⟩ := roundHalfEven_near num hpos
  rw [hscale]
  refine roundsTo_spaced (by positivity) ?_ ?_ hnear heven
  · rw [Nat.le_div_iff_mul_le hpos] at hlow
    rw [le_div_iff₀ hposQ]
    exact_mod_cast hlow
  · rw [Nat.div_lt_iff_lt_mul hpos] at hhigh
    rw [div_lt_iff₀ hposQ]
    exact_mod_cast hhigh

end LineCalc.Binary64
