import LineCalc.Chain.Reduction
/-!
# LineCalc.Proofs.Chain.Join

**Joining** two chains by an operator, and what reduction makes of the result.

A pass over a tier leaves a join alone as long as the joining operator belongs to
another tier (`collapse_join`). So where that operator binds less tightly than
everything behind it and no more tightly than anything in front of it, all other
operators are gone before its turn comes, and it is applied to the values of the
two parts: `value_join`.
-/

namespace LineCalc

/-- The tiers in front of an operator's own are those of the operators that bind
more tightly. -/
theorem Op.exists_tiers_eq (op : Op) :
    ∃ higher lower, tiers = higher ++ op.precedence :: lower ∧
      (∀ tier ∈ higher, op.precedence < tier) ∧
      ∀ o : Op, op.precedence < o.precedence → o.precedence ∈ higher := by
  cases op with
  | pow => exact ⟨[], [2, 1], rfl, by decide, fun o => by cases o <;> decide⟩
  | mul => exact ⟨[3], [1], rfl, by decide, fun o => by cases o <;> decide⟩
  | div => exact ⟨[3], [1], rfl, by decide, fun o => by cases o <;> decide⟩
  | add => exact ⟨[3, 2], [], rfl, by decide, fun o => by cases o <;> decide⟩
  | sub => exact ⟨[3, 2], [], rfl, by decide, fun o => by cases o <;> decide⟩

namespace Chain

/-- The chain `l op r`. -/
def join (l : Chain) (op : Op) (r : Chain) : Chain :=
  ⟨l.first, l.links ++ ⟨op, r.first⟩ :: r.links⟩

@[simp] theorem first_single (x : Number) : (single x).first = x := rfl

@[simp] theorem ops_join (l r : Chain) (op : Op) : (l.join op r).ops = l.ops ++ op :: r.ops := by
  simp [join, ops]

@[simp] theorem tokens_join (l r : Chain) (op : Op) :
    (l.join op r).tokens = l.tokens ++ .operator op :: r.tokens := by
  simp [join, tokens, linkTokens]

@[simp] theorem cons_join (x : Number) (o op : Op) (l r : Chain) :
    (cons x o l).join op r = cons x o (l.join op r) := rfl

theorem join_assoc (a b c : Chain) (o p : Op) :
    (a.join o b).join p c = a.join o (b.join p c) := by
  simp [join]

theorem exists_eq_single_of_ops_eq_nil {c : Chain} (h : c.ops = []) : ∃ x, c = single x := by
  obtain ⟨x, links⟩ := c
  obtain rfl : links = [] := List.map_eq_nil_iff.mp h
  exact ⟨x, rfl⟩

/-! ### One pass -/

@[simp] theorem collapse_single (x : Number) (tier : Nat) : (single x).collapse tier = single x :=
  rfl

theorem collapse_cons_of_eq {tier : Nat} {op : Op} (h : op.precedence = tier) (x : Number)
    (c : Chain) : (cons x op c).collapse tier = collapse ⟨op.apply x c.first, c.links⟩ tier := by
  show collapseLinks tier x (⟨op, c.first⟩ :: c.links) = _
  rw [collapseLinks, if_pos h]
  rfl

theorem collapse_cons_of_ne {tier : Nat} {op : Op} (h : op.precedence ≠ tier) (x : Number)
    (c : Chain) : (cons x op c).collapse tier = cons x op (c.collapse tier) := by
  show collapseLinks tier x (⟨op, c.first⟩ :: c.links) = _
  rw [collapseLinks, if_neg h]
  rfl

/-- A pass over a tier removes the operators of that tier and no others. -/
theorem ops_collapse (c : Chain) (tier : Nat) :
    (c.collapse tier).ops = c.ops.filter (fun o => o.precedence ≠ tier) := by
  obtain ⟨x, links⟩ := c
  induction links generalizing x with
  | nil => rfl
  | cons link rest ih =>
    show ((cons x link.op ⟨link.operand, rest⟩).collapse tier).ops = _
    by_cases h : link.op.precedence = tier
    · rw [collapse_cons_of_eq h, ih]
      simp [ops, h]
    · rw [collapse_cons_of_ne h, ops_cons, ih]
      simp [ops, h]

/-- A pass over another tier goes through the two parts of a join. -/
theorem collapse_join {tier : Nat} {op : Op} (h : op.precedence ≠ tier) (l r : Chain) :
    (l.join op r).collapse tier = (l.collapse tier).join op (r.collapse tier) := by
  obtain ⟨x, links⟩ := l
  -- what is applied in front of the join is the operand that the rest starts with
  induction links generalizing x with
  | nil => exact collapse_cons_of_ne h x r
  | cons link rest ih =>
    show (cons x link.op (join ⟨link.operand, rest⟩ op r)).collapse tier
      = ((cons x link.op ⟨link.operand, rest⟩).collapse tier).join op (r.collapse tier)
    by_cases hlink : link.op.precedence = tier
    · rw [collapse_cons_of_eq hlink, collapse_cons_of_eq hlink]
      exact ih _
    · rw [collapse_cons_of_ne hlink, collapse_cons_of_ne hlink, ih, cons_join]

/-- A chain of one tier, with one more operator of that tier behind it, is reduced
from the left: the last operator is applied last. -/
theorem collapse_join_single {tier : Nat} {op : Op} {l : Chain} (hop : op.precedence = tier)
    (hl : ∀ o ∈ l.ops, o.precedence = tier) (y : Number) :
    (l.join op (single y)).collapse tier = single (op.apply (l.collapse tier).first y) := by
  obtain ⟨x, links⟩ := l
  induction links generalizing x with
  | nil => exact collapse_cons_of_eq hop x (single y)
  | cons link rest ih =>
    have hlink : link.op.precedence = tier := hl link.op (by simp [ops])
    have hrest : ∀ o ∈ ops ⟨link.operand, rest⟩, o.precedence = tier := by
      intro o ho
      exact hl o (List.mem_cons_of_mem link.op ho)
    show (cons x link.op (join ⟨link.operand, rest⟩ op (single y))).collapse tier
      = single (op.apply ((cons x link.op ⟨link.operand, rest⟩).collapse tier).first y)
    rw [collapse_cons_of_eq hlink, collapse_cons_of_eq hlink]
    exact ih _ hrest

/-! ### Several passes -/

theorem foldl_collapse_single (tiers : List Nat) (x : Number) :
    tiers.foldl collapse (single x) = single x := by
  induction tiers with
  | nil => rfl
  | cons tier tiers ih => rw [List.foldl_cons, collapse_single, ih]

theorem ops_foldl_collapse (tiers : List Nat) (c : Chain) :
    (tiers.foldl collapse c).ops = c.ops.filter (fun o => o.precedence ∉ tiers) := by
  induction tiers generalizing c with
  | nil => exact (List.filter_eq_self.mpr (by simp)).symm
  | cons tier tiers ih =>
    rw [List.foldl_cons, ih, ops_collapse, List.filter_filter]
    refine List.filter_congr ?_
    intro o _
    rw [← Bool.decide_and, decide_eq_decide, List.mem_cons, not_or, and_comm]

theorem foldl_collapse_join {tiers : List Nat} {op : Op} (h : op.precedence ∉ tiers)
    (l r : Chain) :
    tiers.foldl collapse (l.join op r)
      = (tiers.foldl collapse l).join op (tiers.foldl collapse r) := by
  induction tiers generalizing l r with
  | nil => rfl
  | cons tier tiers ih =>
    rw [List.mem_cons, not_or] at h
    obtain ⟨hne, hrest⟩ := h
    rw [List.foldl_cons, collapse_join hne, ih hrest]
    rfl

@[simp] theorem value_single (x : Number) : (single x).value = x := by
  rw [value, foldl_collapse_single, first_single]

/-- An operator that binds less tightly than everything behind it, and no more
tightly than anything in front of it, is applied to the values of the two parts. -/
theorem value_join {l r : Chain} {op : Op} (hl : ∀ o ∈ l.ops, op.precedence ≤ o.precedence)
    (hr : ∀ o ∈ r.ops, op.precedence < o.precedence) :
    (l.join op r).value = op.apply l.value r.value := by
  obtain ⟨higher, lower, htiers, hhigher, hmem⟩ := op.exists_tiers_eq
  have value_eq : ∀ c : Chain, c.value
      = (lower.foldl collapse ((higher.foldl collapse c).collapse op.precedence)).first := by
    intro c
    rw [value, htiers, List.foldl_append, List.foldl_cons]
  have hop : op.precedence ∉ higher := fun h => Nat.lt_irrefl _ (hhigher _ h)
  -- the part behind is used up by the passes in front of the operator's own
  obtain ⟨y, hright⟩ : ∃ y, higher.foldl collapse r = single y := by
    refine exists_eq_single_of_ops_eq_nil ?_
    rw [ops_foldl_collapse, List.filter_eq_nil_iff]
    intro o ho
    simpa using hmem o (hr o ho)
  have hy : r.value = y := by
    rw [value_eq, hright, collapse_single, foldl_collapse_single, first_single]
  -- the part in front is left with the operator's own tier
  have hleft : ∀ o ∈ (higher.foldl collapse l).ops, o.precedence = op.precedence := by
    intro o ho
    rw [ops_foldl_collapse, List.mem_filter] at ho
    have hle := hl o ho.1
    have hnot : ¬ op.precedence < o.precedence := by
      intro hlt
      simpa [hmem o hlt] using ho.2
    omega
  obtain ⟨x, hpass⟩ : ∃ x, (higher.foldl collapse l).collapse op.precedence = single x := by
    refine exists_eq_single_of_ops_eq_nil ?_
    rw [ops_collapse, List.filter_eq_nil_iff]
    intro o ho
    simpa using hleft o ho
  have hx : l.value = x := by
    rw [value_eq, hpass, foldl_collapse_single, first_single]
  rw [value_eq, foldl_collapse_join hop, hright, collapse_join_single rfl hleft, hpass,
    foldl_collapse_single, first_single, first_single, hx, hy]

end Chain

end LineCalc
