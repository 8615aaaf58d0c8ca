import LineCalc.Chain.Contraction
import LineCalc.Proofs.Engines
import Mathlib.Data.List.Chain
/-!
# LineCalc.Proofs.Chain.Trace

What an **observer** of a reduction sees is the whole reduction, one operator at a
time.

The tiers are passed through from the tightest on, so within the pass over a tier
no operator binds more tightly, and the pass applies the first operator of the
tier again and again (`Chain.isChain_collapseSteps`). Taken together the passes
apply the first of the tightest operators in every step, until none is left
(`Chain.isChain_trace`, `Chain.getLast?_trace`).

`ReductionRun` says this of token sequences.
-/

namespace LineCalc

/-- The operator of a token that is one. -/
def Token.operator? : Token → Option Op
  | operator op => some op
  | number _ | endOfInput => none

/-- One step of a reduction, on tokens: the first of the tightest operators and its
two operands are replaced by the value, and all other tokens stay. -/
inductive ReductionStep : List Token → List Token → Prop
  | mk (before : List Token) (a : Number) (op : Op) (b : Number) (behind : List Token)
    (hbefore : ∀ o, .operator o ∈ before → o.precedence < op.precedence)
    (hbehind : ∀ o, .operator o ∈ behind → o.precedence ≤ op.precedence) :
    ReductionStep (before ++ .number a :: .operator op :: .number b :: behind)
      (before ++ .number (op.apply a b) :: behind)

/-- `steps` are the sequences of a whole reduction, which starts at `ts` and ends at
the number `x`. -/
structure ReductionRun (ts : List Token) (steps : List (List Token)) (x : Number) : Prop where
  /-- There is a step for each operator. -/
  length_eq : steps.length = (ts.filterMap Token.operator?).length
  /-- Operands and operators alternate at any time, and each step uses up two tokens. -/
  state : ∀ k state, (ts :: steps)[k]? = some state →
    WellFormed state ∧ state.length = 2 * (steps.length - k) + 1
  /-- Each step applies the first of the tightest operators. -/
  step : List.IsChain ReductionStep (ts :: steps)
  /-- In the end the value is left. -/
  last : (ts :: steps).getLast? = some [.number x]

namespace Chain

/-! ### One step -/

/-- `c.StepsAt tier d`: the first operator of a tier is applied, and no operator of
`c` binds more tightly. -/
def StepsAt (tier : Nat) (c d : Chain) : Prop :=
  ∃ before op behind, c.ops = before ++ op :: behind ∧ op.precedence = tier ∧
    (∀ o ∈ before, o.precedence < tier) ∧ (∀ o ∈ behind, o.precedence ≤ tier) ∧
    c.contract before.length = some d

/-- The first of the tightest operators is applied. -/
def Steps (c d : Chain) : Prop := ∃ tier, StepsAt tier c d

/-- An operator that binds less tightly does not matter in front. -/
theorem StepsAt.cons {tier : Nat} {c d : Chain} (h : StepsAt tier c d) (x : Number) {op : Op}
    (hop : op.precedence < tier) : StepsAt tier (cons x op c) (cons x op d) := by
  obtain ⟨before, o, behind, hops, ho, hbefore, hbehind, hcontract⟩ := h
  refine ⟨op :: before, o, behind, ?_, ho, ?_, hbehind, ?_⟩
  · rw [ops_cons, hops, List.cons_append]
  · intro p hp
    rcases List.mem_cons.mp hp with rfl | hp
    · exact hop
    · exact hbefore p hp
  · rw [List.length_cons, contract_cons_succ, hcontract, Option.map_some]

/-- A step uses up one operator. -/
theorem Steps.length_ops {c d : Chain} (h : c.Steps d) : d.ops.length + 1 = c.ops.length := by
  obtain ⟨tier, before, op, behind, hops, -, -, -, hcontract⟩ := h
  have hlt : before.length < c.ops.length := by simp [hops]
  rw [ops_contract hcontract, List.length_eraseIdx_of_lt hlt]
  omega

theorem filterMap_operator?_take_tokens (c : Chain) (i : Nat) :
    (c.tokens.take (2 * i)).filterMap Token.operator? = c.ops.take i := by
  induction c using Chain.induction generalizing i with
  | single x => cases i <;> simp [Nat.mul_add, Token.operator?]
  | cons x op c ih =>
    cases i with
    | zero => rfl
    | succ i => simp [Nat.mul_add, List.filterMap_cons, Token.operator?, ih]

theorem filterMap_operator?_tokens (c : Chain) : c.tokens.filterMap Token.operator? = c.ops := by
  induction c using Chain.induction with
  | single x => rfl
  | cons x op c ih => simp [List.filterMap_cons, Token.operator?, ih]

theorem length_tokens (c : Chain) : c.tokens.length = 2 * c.ops.length + 1 := by
  induction c using Chain.induction with
  | single x => rfl
  | cons x op c ih => simp [ih, Nat.mul_add]

/-- A step of a chain is a step of its tokens. -/
theorem Steps.reductionStep {c d : Chain} (h : c.Steps d) :
    ReductionStep c.tokens d.tokens := by
  obtain ⟨tier, beforeOps, op, behindOps, hops, rfl, hbefore, hbehind, hcontract⟩ := h
  obtain ⟨before, a, o, b, behind, hc, hd, hlength⟩ := tokens_contract hcontract
  have hfront : before.filterMap Token.operator? = beforeOps := by
    have htake := c.filterMap_operator?_take_tokens beforeOps.length
    rwa [hc, ← hlength, List.take_left, hops, List.take_left] at htake
  have hall := c.filterMap_operator?_tokens
  rw [hc, List.filterMap_append, hfront, hops] at hall
  obtain ⟨rfl, rfl⟩ := List.cons.inj (List.append_cancel_left hall)
  rw [hc, hd]
  refine .mk before a o b behind ?_ ?_
  · intro p hp
    exact hbefore p (hfront ▸ List.mem_filterMap.mpr ⟨_, hp, rfl⟩)
  · intro p hp
    exact hbehind p (List.mem_filterMap.mpr ⟨_, .tail _ hp, rfl⟩)

/-! ### All steps -/

/-- The pass over a tier applies its operators from the left. -/
theorem isChain_collapseSteps {tier : Nat} {x : Number} {links : List Link}
    (h : ∀ o ∈ ops ⟨x, links⟩, o.precedence ≤ tier) :
    List.IsChain (StepsAt tier) (⟨x, links⟩ :: collapseSteps tier x links) := by
  induction links generalizing x with
  | nil => exact .singleton _
  | cons link rest ih =>
    obtain ⟨op, y⟩ := link
    have hop : op.precedence ≤ tier := h op (by simp [ops])
    have hrest : ∀ x, ∀ o ∈ ops ⟨x, rest⟩, o.precedence ≤ tier :=
      fun x o ho => h o (List.mem_cons_of_mem op ho)
    by_cases htier : op.precedence = tier
    · have hnone : ∀ o ∈ ([] : List Op), o.precedence < tier :=
        fun o ho => absurd ho List.not_mem_nil
      rw [collapseSteps, if_pos htier]
      exact .cons_cons ⟨[], op, ops ⟨x, rest⟩, rfl, htier, hnone, hrest x, rfl⟩ (ih (hrest _))
    · have hlt : op.precedence < tier := by omega
      rw [collapseSteps, if_neg htier]
      exact List.isChain_cons_map_of_isChain_cons (cons x op) (fun c d hstep => hstep.cons x hlt)
        (ih (hrest y))

theorem isChain_traceTiers {tiers : List Nat} (htiers : tiers.Pairwise (· > ·)) {c : Chain}
    (hc : ∀ o ∈ c.ops, o.precedence ∈ tiers) :
    List.IsChain Steps (c :: traceTiers tiers c) := by
  induction tiers generalizing c with
  | nil => exact .singleton _
  | cons tier tiers ih =>
    obtain ⟨htier, htiers⟩ := List.pairwise_cons.mp htiers
    have hle : ∀ o ∈ c.ops, o.precedence ≤ tier := by
      intro o ho
      rcases List.mem_cons.mp (hc o ho) with heq | hmem
      · omega
      · exact Nat.le_of_lt (htier _ hmem)
    have hpass : List.IsChain Steps (c :: collapseSteps tier c.first c.links) :=
      (isChain_collapseSteps hle).imp fun c d hstep => ⟨tier, hstep⟩
    have hlast : (c :: collapseSteps tier c.first c.links).getLast? = some (c.collapse tier) := by
      rw [List.getLast?_cons, ← List.getLastD_eq_getLast?]
      exact congrArg some (getLastD_collapseSteps tier c.first c.links)
    -- the operators of the tier are used up, so the rest of the tiers will do
    have hcollapse : ∀ o ∈ (c.collapse tier).ops, o.precedence ∈ tiers := by
      intro o ho
      rw [ops_collapse, List.mem_filter, decide_eq_true_eq] at ho
      exact (List.mem_cons.mp (hc o ho.1)).resolve_left ho.2
    obtain ⟨hhead, hmore⟩ := List.isChain_cons.mp (ih htiers hcollapse)
    rw [traceTiers, ← List.cons_append, List.isChain_append, hlast]
    refine ⟨hpass, hmore, ?_⟩
    intro d hd
    obtain rfl := Option.some.inj hd
    exact hhead

/-- Every step of the trace applies the first of the tightest operators. -/
theorem isChain_trace (c : Chain) : List.IsChain Steps (c :: c.trace) :=
  isChain_traceTiers (by decide) fun o _ => o.precedence_mem_tiers

/-- The last chain of the trace is the value. -/
theorem getLast?_trace (c : Chain) : (c :: c.trace).getLast? = some (single c.value) := by
  have hlast := getLastD_traceTiers Op.tiers c
  obtain ⟨x, hx⟩ : ∃ x, Op.tiers.foldl collapse c = single x := by
    refine exists_eq_single_of_ops_eq_nil ?_
    rw [ops_foldl_collapse, List.filter_eq_nil_iff]
    intro o _
    simp [o.precedence_mem_tiers]
  rw [List.getLast?_cons, ← List.getLastD_eq_getLast?]
  show some (c.trace.getLastD c) = _
  rw [trace, hlast, value, hx, first_single]

/-- Each step of a run of steps has used up one operator more. -/
theorem length_ops_of_isChain {c : Chain} {ds : List Chain} (h : List.IsChain Steps (c :: ds))
    {k : Nat} {d : Chain} (hd : (c :: ds)[k]? = some d) : d.ops.length + k = c.ops.length := by
  induction ds generalizing c k with
  | nil =>
    cases k with
    | zero =>
      obtain rfl := Option.some.inj hd
      rfl
    | succ k => cases hd
  | cons e ds ih =>
    obtain ⟨hstep, hrun⟩ := List.isChain_cons_cons.mp h
    cases k with
    | zero =>
      obtain rfl := Option.some.inj hd
      rfl
    | succ k =>
      have hk := ih hrun hd
      have hlen := hstep.length_ops
      omega

theorem length_trace (c : Chain) : c.trace.length = c.ops.length := by
  have hlast := c.getLast?_trace
  rw [List.getLast?_eq_getElem?] at hlast
  have hlen := length_ops_of_isChain c.isChain_trace hlast
  simpa using hlen

/-- The trace of a chain is the whole of its reduction. -/
theorem reductionRun_trace (c : Chain) :
    ReductionRun c.tokens (c.trace.map tokens) c.value where
  length_eq := by rw [List.length_map, c.length_trace, filterMap_operator?_tokens]
  state := by
    intro k state hstate
    rw [← List.map_cons, List.getElem?_map, Option.map_eq_some_iff] at hstate
    obtain ⟨d, hd, rfl⟩ := hstate
    have hops := length_ops_of_isChain c.isChain_trace hd
    refine ⟨d.wellFormed_tokens, ?_⟩
    rw [length_tokens, List.length_map, length_trace]
    omega
  step := List.isChain_cons_map_of_isChain_cons tokens (fun c d h => h.reductionStep)
    c.isChain_trace
  last := by
    rw [← List.map_cons, List.getLast?_map, getLast?_trace]
    rfl

end Chain

/-- An observer of the reduction of a well-formed sequence sees **the whole
reduction**, up to the number that is the outcome, observed or not. -/
theorem steps_reductionRun (ts : List Token) (h : WellFormed ts) :
    ∃ x, ReductionRun ts (Reduction.ofTokens ts).steps x ∧
      (Reduction.ofTokens ts).outcome = .ok x ∧ reduce ts = .ok x := by
  obtain ⟨c, rfl⟩ := wellFormed_iff_exists_chain.mp h
  have hreduce : reduce c.tokens = .ok c.value := by
    rw [reduce, Chain.ofTokens?_tokens]
  refine ⟨c.value, ?_, ?_, hreduce⟩
  · rw [Reduction.ofTokens, Chain.ofTokens?_tokens]
    exact c.reductionRun_trace
  · rw [Reduction.outcome_ofTokens, hreduce]

/-- `1 + 2 * 3 - 4`: the product comes first, and then the others from the left. -/
theorem steps_reductionRun_mixed :
    WellFormed [.number (.plain 1), .operator .add, .number (.plain 2), .operator .mul,
      .number (.plain 3), .operator .sub, .number (.plain 4)] ∧
    ∃ x, ReductionRun
      [.number (.plain 1), .operator .add, .number (.plain 2), .operator .mul,
        .number (.plain 3), .operator .sub, .number (.plain 4)]
      [[.number (.plain 1), .operator .add, .number (.plain (2 * 3)), .operator .sub,
          .number (.plain 4)],
        [.number (.plain (1 + 2 * 3)), .operator .sub, .number (.plain 4)],
        [.number (.plain (1 + 2 * 3 - 4))]] x ∧
      (Reduction.ofTokens [.number (.plain 1), .operator .add, .number (.plain 2), .operator .mul,
        .number (.plain 3), .operator .sub, .number (.plain 4)]).outcome = .ok x ∧
      reduce [.number (.plain 1), .operator .add, .number (.plain 2), .operator .mul,
        .number (.plain 3), .operator .sub, .number (.plain 4)] = .ok x :=
  ⟨by decide, steps_reductionRun _ (by decide)⟩

end LineCalc
