import LineCalc.Binary64.Basic
/-!
# LineCalc.Binary64.Nearest

**Correct rounding** of an exact quotient `num / den` of natural numbers to a
binary64 magnitude: the nearest value, a tie going to the even significand,
gradual underflow at the small end and infinity at the large one.

The quotient is measured in the spacing of the binade it falls into
(`doublings`), and one rounding of a quotient of natural numbers,
`roundHalfEven`, then decides. A significand that rounds up to `2 ^ 53` carries
into the exponent by itself, since the next binade starts where this one ends.
-/

namespace LineCalc.Binary64

/-- The quotient rounded to the nearest natural number, a tie to the even one. -/
def roundHalfEven (num den : Nat) : Nat :=
  let below := num / den
  let twice := 2 * (num % den)
  if twice < den ∨ (twice = den ∧ below % 2 = 0) then below else below + 1

/-- How many times the spacing has doubled, from the unit up to the spacing of
the values around `num / den` units. -/
def doublings (num den : Nat) : Nat := Nat.log2 (num / den) - 52

/-- The magnitude nearest to `num / den` units, ties to even. -/
def nearestUnits (num den : Nat) : Nat :=
  let k := doublings num den
  min infinity (k * binade + roundHalfEven num (den <<< k))

/-- The magnitude nearest to `num / den`, ties to even. -/
def nearest (num den : Nat) : Nat := nearestUnits (num <<< unitExponent) den

/-- Rounding goes down where the remainder is at most half of the denominator,
and up where it is at least half. -/
theorem roundHalfEven_cases (num den : Nat) :
    (roundHalfEven num den = num / den ∧ 2 * (num % den) ≤ den) ∨
      (roundHalfEven num den = num / den + 1 ∧ den ≤ 2 * (num % den)) := by
  unfold roundHalfEven
  dsimp only
  split
  · exact .inl ⟨rfl, by omega⟩
  · exact .inr ⟨rfl, by omega⟩

/-- A tie goes to the even neighbour. -/
theorem roundHalfEven_of_tie {num den : Nat} (h : 2 * (num % den) = den) :
    roundHalfEven num den % 2 = 0 := by
  unfold roundHalfEven
  dsimp only
  split <;> omega

end LineCalc.Binary64
