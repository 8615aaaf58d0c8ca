import LineCalc.Chain.Basic
import LineCalc.Error
/-!
# LineCalc.Chain.Reduction

The value of a chain **by reduction**: operators are applied tier by tier, the
tightest first, and from left to right within a tier, until one number is left.

* `Chain.collapse` applies all operators of one tier in a single pass, and
  `Chain.value` does so for every tier in turn.
* `Chain.trace` lists the chains in between, one for each operator applied. It
  ends at the value: `first_getLast_trace`.
* `reduce` and `Reduction.ofTokens` are the same for token sequences, of which
  those that are not well formed are refused before anything is applied.
-/

namespace LineCalc

namespace Chain

/-- Applies the operators of a tier along the links behind `x`. What has been
applied so far is the operand in front of the next link. -/
def collapseLinks (tier : Nat) (x : Number) : List Link → Chain
  | [] => ⟨x, []⟩
  | ⟨op, y⟩ :: rest =>
    if op.precedence = tier then collapseLinks tier (op.apply x y) rest
    else cons x op (collapseLinks tier y rest)

/-- Applies all operators of a tier, from the left. -/
def collapse (c : Chain) (tier : Nat) : Chain := collapseLinks tier c.first c.links

/-- The chains that `collapseLinks` passes through, one for each operator that it
applies. -/
def collapseSteps (tier : Nat) (x : Number) : List Link → List Chain
  | [] => []
  | ⟨op, y⟩ :: rest =>
    if op.precedence = tier then
      ⟨op.apply x y, rest⟩ :: collapseSteps tier (op.apply x y) rest
    else (collapseSteps tier y rest).map (cons x op)

/-- The chains on the way through the given tiers. -/
def traceTiers : List Nat → Chain → List Chain
  | [], _ => []
  | tier :: tiers, c => collapseSteps tier c.first c.links ++ traceTiers tiers (c.collapse tier)

/-- The chains on the way to the value, one for each operator. -/
def trace (c : Chain) : List Chain := traceTiers Op.tiers c

/-- The value of a chain. -/
def value (c : Chain) : Number := (Op.tiers.foldl collapse c).first

/-- A pass ends at the last of its steps. -/
theorem getLastD_collapseSteps (tier : Nat) (x : Number) (links : List Link) :
    (collapseSteps tier x links).getLastD ⟨x, links⟩ = collapseLinks tier x links := by
  induction links generalizing x with
  | nil => rfl
  | cons link rest ih =>
    by_cases h : link.op.precedence = tier
    · rw [collapseSteps, collapseLinks, if_pos h, if_pos h, List.getLastD_cons, ih]
    · rw [collapseSteps, collapseLinks, if_neg h, if_neg h, ← ih]
      simp only [List.getLastD_eq_getLast?, List.getLast?_map]
      cases (collapseSteps tier link.operand rest).getLast? <;> rfl

theorem getLastD_traceTiers (tiers : List Nat) (c : Chain) :
    (traceTiers tiers c).getLastD c = tiers.foldl collapse c := by
  induction tiers generalizing c with
  | nil => rfl
  | cons tier tiers ih =>
    have hpass := getLastD_collapseSteps tier c.first c.links
    rw [List.foldl_cons, ← ih, traceTiers]
    simp only [List.getLastD_eq_getLast?, List.getLast?_append] at hpass ⊢
    cases (traceTiers tiers (c.collapse tier)).getLast? with
    | some d => rfl
    | none => exact hpass

/-- The trace ends at the value. -/
theorem first_getLast_trace (c : Chain) : ((trace c).getLastD c).first = c.value := by
  rw [trace, getLastD_traceTiers, value]

end Chain

/-- The value of a token sequence, by reduction. -/
def reduce (ts : List Token) : Except EvalError Number :=
  match Chain.ofTokens? ts with
  | some c => .ok c.value
  | none => .error .malformed

/-- What an observer of a reduction sees. -/
structure Reduction where
  /-- The whole sequence after each operator applied. -/
  steps : List (List Token)
  /-- What is left at the end. -/
  outcome : Except EvalError Number

/-- The observed reduction of a token sequence. Its outcome is read off the last
chain that the observer sees. -/
def Reduction.ofTokens (ts : List Token) : Reduction :=
  match Chain.ofTokens? ts with
  | some c => ⟨c.trace.map Chain.tokens, .ok (c.trace.getLastD c).first⟩
  | none => ⟨[], .error .malformed⟩

end LineCalc
