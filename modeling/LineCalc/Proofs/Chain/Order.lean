import LineCalc.Proofs.Chain.Trace
/-!
# LineCalc.Proofs.Chain.Order

In which **order** reduction uses up the operators of a sequence.

An operator is known by its rank, the number of operators in front of it at the start.
Operators move to the left as others in front of them are applied, but they do not
overtake each other, so the operators that are left are always in the order of their
ranks (`Eliminates`). Each step takes the first of the tightest, and that one goes before
all others that are left, hence before all that are applied later
(`Eliminates.pairwise_goesBefore`). An order like this is a stable sort, and there is no
other (`Eliminates.unique`).
-/

namespace LineCalc

/-- An operator of a sequence, with its rank: how many operators stand in front of it
before anything is applied. -/
abbrev RankedOp := Op × Nat

/-- The operators of a sequence, in order, each with its rank. -/
def rankedOps (ts : List Token) : List RankedOp := (ts.filterMap Token.operator?).zipIdx

/-- `Eliminates ranked states order`: along the states of a reduction, the first of which has
the operators `ranked`, the operators are applied in the given order. Which operator a step
applies is decided by the operators that are left: it is the first of the tightest of them.
It goes, with its rank, and the others stay, with theirs. -/
inductive Eliminates : List RankedOp → List (List Token) → List RankedOp → Prop
  | done (x : Number) : Eliminates [] [[.number x]] []
  | step {front back order : List RankedOp} {before behind : List Token}
    {states : List (List Token)} (a : Number) (op : Op) (rank : Nat) (b : Number)
    (hfront : front.map Prod.fst = before.filterMap Token.operator?)
    (hback : back.map Prod.fst = behind.filterMap Token.operator?)
    (hbefore : ∀ o ∈ front, o.1.precedence < op.precedence)
    (hbehind : ∀ o ∈ back, o.1.precedence ≤ op.precedence)
    (hmore : Eliminates (front ++ back)
      ((before ++ .number (op.apply a b) :: behind) :: states) order) :
    Eliminates (front ++ (op, rank) :: back)
      ((before ++ .number a :: .operator op :: .number b :: behind) ::
        (before ++ .number (op.apply a b) :: behind) :: states) ((op, rank) :: order)

/-- `o` goes before `p`: it binds more tightly, or equally and stands further to the left. -/
def GoesBefore (o p : RankedOp) : Prop :=
  p.1.precedence < o.1.precedence ∨ p.1.precedence = o.1.precedence ∧ o.2 < p.2

theorem GoesBefore.asymm {o p : RankedOp} (h : GoesBefore o p) : ¬ GoesBefore p o := by
  unfold GoesBefore at h ⊢
  omega

/-- Ranks increase from left to right. -/
theorem pairwise_rankedOps (ts : List Token) :
    (rankedOps ts).Pairwise fun o p => o.2 < p.2 := by
  rw [← List.pairwise_map, rankedOps, List.zipIdx_map_snd]
  exact List.pairwise_lt_range'

namespace Eliminates

variable {ranked order order' : List RankedOp} {states : List (List Token)}

/-- Every operator is applied, and only once. -/
theorem perm (h : Eliminates ranked states order) : order.Perm ranked := by
  induction h with
  | done x => exact .nil
  | step a op rank b _ _ _ _ _ ih => exact (ih.cons _).trans List.perm_middle.symm

/-- The operators are applied one before the other. -/
theorem pairwise_goesBefore (h : Eliminates ranked states order)
    (hranked : ranked.Pairwise fun o p => o.2 < p.2) : order.Pairwise GoesBefore := by
  induction h with
  | done x => exact .nil
  | @step front back order _ _ _ a op rank b _ _ hbefore hbehind hmore ih =>
    have hleft : (front ++ back).Sublist (front ++ (op, rank) :: back) :=
      (List.sublist_cons_self _ _).append_left front
    refine List.pairwise_cons.mpr ⟨?_, ih (hranked.sublist hleft)⟩
    intro o ho
    -- what is applied later is left now, in front or behind
    rcases List.mem_append.mp (hmore.perm.mem_iff.mp ho) with hfront | hback
    · exact .inl (hbefore o hfront)
    · have hrank : rank < o.2 :=
        List.rel_of_pairwise_cons (List.pairwise_append.mp hranked).2.1 hback
      rcases Nat.lt_or_eq_of_le (hbehind o hback) with hlt | heq
      · exact .inl hlt
      · exact .inr ⟨heq, hrank⟩

/-- There is one order only. -/
theorem unique (h : Eliminates ranked states order) (h' : Eliminates ranked states order')
    (hranked : ranked.Pairwise fun o p => o.2 < p.2) : order' = order := by
  refine (h'.perm.trans h.perm.symm).eq_of_pairwise ?_ (h'.pairwise_goesBefore hranked)
    (h.pairwise_goesBefore hranked)
  intro o p _ _ hop hpo
  exact absurd hpo hop.asymm

end Eliminates

/-! ### The order of a reduction -/

theorem Token.operator_mem_of_mem_filterMap {ts : List Token} {o : Op}
    (h : o ∈ ts.filterMap Token.operator?) : .operator o ∈ ts := by
  obtain ⟨t, ht, hop⟩ := List.mem_filterMap.mp h
  cases t with
  | operator p =>
    obtain rfl := Option.some.inj hop
    exact ht
  | number x => cases hop
  | endOfInput => cases hop

/-- A run of reduction steps to a single number applies its operators in some order. -/
theorem exists_eliminates {ts : List Token} {steps : List (List Token)} {x : Number}
    (hsteps : List.IsChain ReductionStep (ts :: steps))
    (hlast : (ts :: steps).getLast? = some [.number x]) {ranked : List RankedOp}
    (hranked : ranked.map Prod.fst = ts.filterMap Token.operator?) :
    ∃ order, Eliminates ranked (ts :: steps) order := by
  induction steps generalizing ts ranked with
  | nil =>
    obtain rfl := Option.some.inj hlast
    obtain rfl := List.map_eq_nil_iff.mp hranked
    exact ⟨[], .done x⟩
  | cons us steps ih =>
    obtain ⟨hstep, hmore⟩ := List.isChain_cons_cons.mp hsteps
    obtain ⟨before, a, op, b, behind, hbefore, hbehind⟩ := hstep
    -- the ranks are split where the sequence is split
    rw [List.filterMap_append, List.map_eq_append_iff] at hranked
    obtain ⟨front, rest, rfl, hfront, hrest⟩ := hranked
    obtain ⟨⟨o, rank⟩, back, rfl, rfl, hback⟩ := List.map_eq_cons_iff.mp hrest
    have hleft : (front ++ back).map Prod.fst
        = (before ++ .number (o.apply a b) :: behind).filterMap Token.operator? := by
      rw [List.map_append, hfront, hback, List.filterMap_append]
      rfl
    obtain ⟨order, horder⟩ := ih hmore hlast hleft
    refine ⟨(o, rank) :: order, .step a o rank b hfront hback ?_ ?_ horder⟩
    · intro p hp
      have hmem : p.1 ∈ before.filterMap Token.operator? := hfront ▸ List.mem_map_of_mem hp
      exact hbefore p.1 (Token.operator_mem_of_mem_filterMap hmem)
    · intro p hp
      have hmem : p.1 ∈ behind.filterMap Token.operator? := hback ▸ List.mem_map_of_mem hp
      exact hbehind p.1 (Token.operator_mem_of_mem_filterMap hmem)

/-! ### Sorting by precedence -/

/-- Whether `o` binds at least as tightly as `p`. -/
def Op.bindsAtLeast (o p : Op) : Bool := p.precedence ≤ o.precedence

theorem Op.bindsAtLeast_trans (o p q : Op) (hop : o.bindsAtLeast p) (hpq : p.bindsAtLeast q) :
    o.bindsAtLeast q := by
  simp only [bindsAtLeast, decide_eq_true_eq] at hop hpq ⊢
  omega

theorem Op.bindsAtLeast_total (o p : Op) : (o.bindsAtLeast p || p.bindsAtLeast o) = true := by
  simp only [bindsAtLeast, Bool.or_eq_true, decide_eq_true_eq]
  omega

/-- A stable sort decides by the rank where precedence does not. -/
theorem zipIdxLE_bindsAtLeast_iff {o p : RankedOp} :
    List.zipIdxLE Op.bindsAtLeast o p = true ↔
      p.1.precedence < o.1.precedence ∨ p.1.precedence = o.1.precedence ∧ o.2 ≤ p.2 := by
  simp only [List.zipIdxLE, Op.bindsAtLeast, decide_eq_true_eq]
  split
  case isTrue hle =>
    split
    case isTrue hge => simp only [decide_eq_true_eq]; omega
    case isFalse hlt => simp only [true_iff]; omega
  case isFalse hlt => simp only [Bool.false_eq_true, false_iff]; omega

theorem eq_of_mem_zipIdx {ops : List Op} {o p : RankedOp} (ho : o ∈ ops.zipIdx)
    (hp : p ∈ ops.zipIdx) (h : o.2 = p.2) : o = p := by
  rw [List.mem_zipIdx_iff_getElem?] at ho hp
  rw [h, hp] at ho
  exact Prod.ext (Option.some.inj ho).symm h

/-- Operators each of which goes before all that follow are sorted by decreasing
precedence, without a change among equals. -/
theorem map_fst_eq_mergeSort {ops : List Op} {order : List RankedOp}
    (hperm : order.Perm ops.zipIdx) (horder : order.Pairwise GoesBefore) :
    order.map Prod.fst = ops.mergeSort Op.bindsAtLeast := by
  have hsorted : order.Pairwise fun o p => List.zipIdxLE Op.bindsAtLeast o p = true := by
    refine horder.imp ?_
    intro o p hop
    rw [zipIdxLE_bindsAtLeast_iff]
    exact hop.imp_right fun heq => ⟨heq.1, Nat.le_of_lt heq.2⟩
  have hmergeSort := List.pairwise_mergeSort (List.zipIdxLE_trans Op.bindsAtLeast_trans)
    (List.zipIdxLE_total Op.bindsAtLeast_total) ops.zipIdx
  have hsame := hperm.trans (List.mergeSort_perm ops.zipIdx (List.zipIdxLE Op.bindsAtLeast)).symm
  rw [← List.mergeSort_zipIdx]
  refine congrArg (List.map Prod.fst) (hsame.eq_of_pairwise ?_ hsorted hmergeSort)
  -- two that go before each other have one rank, and no rank occurs twice
  intro o p ho hp hop hpo
  rw [zipIdxLE_bindsAtLeast_iff] at hop hpo
  exact eq_of_mem_zipIdx (hperm.mem_iff.mp ho) (List.mem_mergeSort.mp hp) (by omega)

/-- Reduction applies the operators of a sequence in the **stable order of decreasing
precedence**: the operators of a tighter tier before those of a looser one, those of one tier
from left to right, and each of them once. This is the order of its steps, and there is no
other in which they could have come. -/
theorem operators_go_in_stable_order (ts : List Token) (h : WellFormed ts) :
    ∃ order : List RankedOp,
      (∀ order', Eliminates (rankedOps ts) (ts :: (Reduction.ofTokens ts).steps) order' ↔
        order' = order) ∧
      order.Perm (rankedOps ts) ∧ order.Pairwise GoesBefore ∧
      order.map Prod.fst
        = (ts.filterMap Token.operator?).mergeSort Op.bindsAtLeast := by
  obtain ⟨c, rfl⟩ := wellFormed_iff_exists_chain.mp h
  have hrun := c.reductionRun_trace
  obtain ⟨order, horder⟩ := exists_eliminates hrun.step hrun.last
    (List.zipIdx_map_fst 0 (c.tokens.filterMap Token.operator?))
  have hranked := pairwise_rankedOps c.tokens
  have hsorted := horder.pairwise_goesBefore hranked
  have hsteps : (Reduction.ofTokens c.tokens).steps = c.trace.map Chain.tokens := by
    rw [Reduction.ofTokens, Chain.ofTokens?_tokens]
  rw [hsteps]
  refine ⟨order, fun order' => ⟨fun h' => horder.unique h' hranked, ?_⟩, horder.perm, hsorted,
    map_fst_eq_mergeSort horder.perm hsorted⟩
  rintro rfl
  exact horder

/-- `1 + 2 * 3 - 4 / 5`: the product and the quotient come first, and then the sum and the
difference. -/
theorem operators_go_in_stable_order_mixed :
    WellFormed [.number (.plain 1), .operator .add, .number (.plain 2), .operator .mul,
      .number (.plain 3), .operator .sub, .number (.plain 4), .operator .div,
      .number (.plain 5)] ∧
    ∃ order : List RankedOp,
      (∀ order', Eliminates [(.add, 0), (.mul, 1), (.sub, 2), (.div, 3)]
        [[.number (.plain 1), .operator .add, .number (.plain 2), .operator .mul,
            .number (.plain 3), .operator .sub, .number (.plain 4), .operator .div,
            .number (.plain 5)],
          [.number (.plain 1), .operator .add, .number (.plain (2 * 3)), .operator .sub,
            .number (.plain 4), .operator .div, .number (.plain 5)],
          [.number (.plain 1), .operator .add, .number (.plain (2 * 3)), .operator .sub,
            .number (.plain (4 / 5))],
          [.number (.plain (1 + 2 * 3)), .operator .sub, .number (.plain (4 / 5))],
          [.number (.plain (1 + 2 * 3 - 4 / 5))]] order' ↔ order' = order) ∧
      order.Perm [(.add, 0), (.mul, 1), (.sub, 2), (.div, 3)] ∧ order.Pairwise GoesBefore ∧
      order.map Prod.fst = [.mul, .div, .add, .sub] := by
  have hsort : [Op.add, .mul, .sub, .div].mergeSort Op.bindsAtLeast = [.mul, .div, .add, .sub] := by
    simp [List.mergeSort, Op.bindsAtLeast, Op.precedence]
  have hwf : WellFormed [.number (.plain 1), .operator .add, .number (.plain 2), .operator .mul,
      .number (.plain 3), .operator .sub, .number (.plain 4), .operator .div,
      .number (.plain 5)] := by decide
  rw [← hsort]
  exact ⟨hwf, operators_go_in_stable_order _ hwf⟩

end LineCalc
