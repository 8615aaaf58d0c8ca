import LineCalc.Proofs.Chain.Trace
import LineCalc.Proofs.Evaluate
import Mathlib.Logic.Relation
/-!
# LineCalc.Proofs.Chain.Confluence

The **order of reduction** does not matter, as long as every operator that is
applied is the tightest where it stands: it binds more tightly than the operator in
front of its operands, and at least as tightly as the one behind them (`LocalStep`).
Reduction itself goes by such steps, and so does every other order, tier by tier or
not; all of them lead to the same value.

The step is undone in a tree. In the tree of the shorter sequence the result is an
operand; with the operator and its operands put back in its place, the tree is the
one of the longer sequence and has the value that it had (`Expr.Tight.exists_undo`).
No law of arithmetic is needed.
-/

namespace LineCalc

/-- One operator is replaced, with its operands, by the value. It binds more tightly
than its neighbour in front and at least as tightly as its neighbour behind, if it has
them. -/
inductive LocalStep : List Token → List Token → Prop
  | mk (before : List Token) (a : Number) (op : Op) (b : Number) (behind : List Token)
    (hbefore : ∀ o, before.getLast? = some (.operator o) → o.precedence < op.precedence)
    (hbehind : ∀ o, behind.head? = some (.operator o) → o.precedence ≤ op.precedence) :
    LocalStep (before ++ .number a :: .operator op :: .number b :: behind)
      (before ++ .number (op.apply a b) :: behind)

/-- A step of the reduction is a step. -/
theorem ReductionStep.localStep {ts us : List Token} (h : ReductionStep ts us) :
    LocalStep ts us := by
  obtain ⟨before, a, op, b, behind, hbefore, hbehind⟩ := h
  exact .mk before a op b behind (fun o ho => hbefore o (List.mem_of_getLast? ho))
    fun o ho => hbehind o (List.mem_of_head? ho)

/-! ### Well-formed sequences -/

theorem WellFormed.with_first {x : Number} {ts : List Token} (h : WellFormed (.number x :: ts))
    (y : Number) : WellFormed (.number y :: ts) := by
  cases h with
  | single => exact .single y
  | cons _ op h => exact .cons y op h

/-- Three neighbours, of which the middle one is an operator, may become a number. -/
theorem WellFormed.contract {before behind : List Token} {a b : Number} {op : Op}
    (h : WellFormed (before ++ .number a :: .operator op :: .number b :: behind)) (x : Number) :
    WellFormed (before ++ .number x :: behind) := by
  generalize hts : before ++ .number a :: .operator op :: .number b :: behind = ts at h
  induction h generalizing before with
  | single y =>
    have hlength := congrArg List.length hts
    simp only [List.length_append, List.length_cons, List.length_nil] at hlength
    omega
  | cons y o h ih =>
    -- the sequence starts with two tokens, so the number in question is the first or behind both
    rcases before with _ | ⟨t, _ | ⟨u, before⟩⟩
    · cases hts
      exact h.with_first x
    · cases hts
    · simp only [List.cons_append, List.cons.injEq] at hts
      obtain ⟨rfl, rfl, hts⟩ := hts
      exact .cons y o (ih hts)

/-! ### Undoing a step -/

namespace Expr

/-- Where a tight tree has the value of `a op b` as an operand, it may have `a op b`
itself, as long as `op` is the tightest among its neighbours. -/
theorem Tight.exists_undo {e : Expr} (h : e.Tight) {before behind : List Token} {a b : Number}
    {op : Op} (htokens : e.tokens = before ++ .number (op.apply a b) :: behind)
    (hbefore : ∀ o, before.getLast? = some (.operator o) → o.precedence < op.precedence)
    (hbehind : ∀ o, behind.head? = some (.operator o) → o.precedence ≤ op.precedence) :
    ∃ e' : Expr, e'.Tight ∧ e'.value = e.value ∧
      e'.tokens = before ++ .number a :: .operator op :: .number b :: behind ∧
      ∀ o ∈ e'.root?, o ∈ e.root? ∨ (o = op ∧ before = [] ∧ behind = []) := by
  induction e generalizing before behind with
  | operand x =>
    rw [tokens, List.singleton_eq_append_iff] at htokens
    rcases htokens with ⟨rfl, htokens⟩ | ⟨-, htokens⟩
    · cases htokens
      refine ⟨node op (operand a) (operand b), tight_node_operands op a b, rfl, rfl, ?_⟩
      intro o ho
      exact .inr ⟨(Option.some.inj ho).symm, rfl, rfl⟩
    · cases htokens
  | node o l r ihl ihr =>
    obtain ⟨hleft, hright, htl, htr⟩ := h
    rw [tokens, List.append_eq_append_iff] at htokens
    rcases htokens with ⟨inner, rfl, hr⟩ | ⟨inner, hl, hr⟩
    · -- the operand belongs to the right part, and `o` or more of that part stands before it
      cases inner with
      | nil => cases hr
      | cons t inner =>
        rw [List.cons_append, List.cons.injEq] at hr
        obtain ⟨rfl, hr⟩ := hr
        have hinner : ∀ p, inner.getLast? = some (.operator p) → p.precedence < op.precedence := by
          intro p hp
          refine hbefore p ?_
          rw [List.getLast?_append, List.getLast?_cons, hp]
          rfl
        obtain ⟨r', htr', hvalue, htokens, hroot⟩ := ihr htr hr hinner hbehind
        refine ⟨node o l r', ⟨hleft, ?_, htl, htr'⟩, ?_, ?_, fun p hp => .inl hp⟩
        · intro p hp
          rcases hroot p hp with hp | ⟨rfl, rfl, -⟩
          · exact hright p hp
          · exact hbefore o List.getLast?_concat
        · rw [value, value, hvalue]
        · rw [tokens, htokens, List.append_assoc, List.cons_append]
    · -- the operand belongs to the left part, and the rest of it or `o` stands behind it
      cases inner with
      | nil => cases hr
      | cons t inner =>
        rw [List.cons_append, List.cons.injEq] at hr
        obtain ⟨rfl, rfl⟩ := hr
        have hinner : ∀ p, inner.head? = some (.operator p) → p.precedence ≤ op.precedence := by
          intro p hp
          refine hbehind p ?_
          rw [List.head?_append, hp]
          rfl
        obtain ⟨l', htl', hvalue, htokens, hroot⟩ := ihl htl hl hbefore hinner
        refine ⟨node o l' r, ⟨?_, hright, htl', htr⟩, ?_, ?_, fun p hp => .inl hp⟩
        · intro p hp
          rcases hroot p hp with hp | ⟨rfl, -, rfl⟩
          · exact hleft p hp
          · exact hbehind o rfl
        · rw [value, value, hvalue]
        · rw [tokens, htokens, List.append_assoc]
          rfl

end Expr

/-! ### One step, and any number of steps -/

/-- `us` is well formed, and each engine finds the same value for it and for `ts`. -/
def ValuedAlike (ts us : List Token) : Prop :=
  WellFormed us ∧ ∃ x, ∀ engine : Engine, engine.value ts = .ok x ∧ engine.value us = .ok x

theorem WellFormed.valuedAlike_self {ts : List Token} (h : WellFormed ts) : ValuedAlike ts ts := by
  obtain ⟨x, hx⟩ := h.exists_value
  exact ⟨h, x, fun engine => ⟨hx engine, hx engine⟩⟩

theorem ValuedAlike.trans {ts us vs : List Token} (h : ValuedAlike ts us)
    (h' : ValuedAlike us vs) : ValuedAlike ts vs := by
  obtain ⟨-, x, hx⟩ := h
  obtain ⟨hvs, y, hy⟩ := h'
  refine ⟨hvs, x, fun engine => ⟨(hx engine).1, ?_⟩⟩
  rw [(hy engine).2, ← (hy engine).1, (hx engine).2]

/-- A step keeps the value. -/
theorem LocalStep.valuedAlike {ts us : List Token} (h : LocalStep ts us) (hts : WellFormed ts) :
    ValuedAlike ts us := by
  obtain ⟨before, a, op, b, behind, hbefore, hbehind⟩ := h
  have hus : WellFormed (before ++ .number (op.apply a b) :: behind) := hts.contract _
  obtain ⟨e, he, htokens⟩ := wellFormed_iff_exists_tight.mp hus
  obtain ⟨e', he', hvalue, htokens', -⟩ := he.exists_undo htokens hbefore hbehind
  refine ⟨hus, e.value, fun engine => ⟨?_, ?_⟩⟩
  · rw [← htokens', ← hvalue]
    exact e'.engine_value_tokens he' engine
  · rw [← htokens]
    exact e.engine_value_tokens he engine

/-- Any number of steps keep the value. -/
theorem valuedAlike_of_reflTransGen {ts us : List Token} (hts : WellFormed ts)
    (h : Relation.ReflTransGen LocalStep ts us) : ValuedAlike ts us := by
  induction h with
  | refl => exact hts.valuedAlike_self
  | tail _ hstep ih => exact ih.trans (hstep.valuedAlike ih.1)

/-- All sequences of a reduction are reached by steps. -/
theorem ReductionRun.reflTransGen_of_mem {ts : List Token} {steps : List (List Token)} {x : Number}
    (h : ReductionRun ts steps x) {state : List Token} (hstate : state ∈ steps) :
    Relation.ReflTransGen LocalStep ts state := by
  have hreach : List.IsChain (Relation.ReflTransGen LocalStep) (ts :: steps) :=
    h.step.imp fun us vs hstep => .single hstep.localStep
  exact List.rel_of_pairwise_cons hreach.pairwise hstate

/-- **Every order gives the same value**: a step that applies the tightest operator of
its surroundings keeps a sequence well formed and keeps its value for both engines,
and so do any number of such steps. In particular both engines find the outcome of a
reduction from any sequence that an observer of it sees. -/
theorem value_in_every_order :
    (∀ ts us, WellFormed ts → LocalStep ts us → ValuedAlike ts us) ∧
    (∀ ts us, WellFormed ts → Relation.ReflTransGen LocalStep ts us → ValuedAlike ts us) ∧
    ∀ ts state, WellFormed ts → state ∈ (Reduction.ofTokens ts).steps →
      WellFormed state ∧ ∃ x, (Reduction.ofTokens ts).outcome = .ok x ∧
        ∀ engine : Engine, engine.value state = .ok x := by
  refine ⟨fun ts us hts h => h.valuedAlike hts, fun ts us => valuedAlike_of_reflTransGen, ?_⟩
  intro ts state hts hstate
  obtain ⟨c, rfl⟩ := wellFormed_iff_exists_chain.mp hts
  rw [Reduction.ofTokens, Chain.ofTokens?_tokens] at hstate
  obtain ⟨hwf, x, hx⟩ :=
    valuedAlike_of_reflTransGen hts (c.reductionRun_trace.reflTransGen_of_mem hstate)
  refine ⟨hwf, x, ?_, fun engine => (hx engine).2⟩
  rw [Reduction.outcome_ofTokens]
  exact (hx .reduction).1

/-- In `1 + 2 - 3 * 4` the sum may go first, although the product binds more tightly:
it is not next to it. Reduction starts with the product. -/
theorem value_in_every_order_sum_first :
    ValuedAlike
      [.number (.plain 1), .operator .add, .number (.plain 2), .operator .sub,
        .number (.plain 3), .operator .mul, .number (.plain 4)]
      [.number (.plain (1 + 2)), .operator .sub, .number (.plain 3), .operator .mul,
        .number (.plain 4)] ∧
    WellFormed [.number (.plain 1), .operator .add, .number (.plain 2), .operator .sub,
      .number (.plain (3 * 4))] ∧
    ∃ x, (Reduction.ofTokens [.number (.plain 1), .operator .add, .number (.plain 2),
        .operator .sub, .number (.plain 3), .operator .mul, .number (.plain 4)]).outcome = .ok x ∧
      ∀ engine : Engine, engine.value [.number (.plain 1), .operator .add, .number (.plain 2),
        .operator .sub, .number (.plain (3 * 4))] = .ok x := by
  have hbehind : ∀ o, [Token.operator .sub, .number (.plain 3), .operator .mul,
      .number (.plain 4)].head? = some (.operator o) → o.precedence ≤ Op.add.precedence := by
    rintro o ⟨⟩
    decide
  have hstep := LocalStep.mk [] (.plain 1) .add (.plain 2) _ nofun hbehind
  obtain ⟨hone, -, hobserved⟩ := value_in_every_order
  exact ⟨hone _ _ (by decide) hstep, hobserved _ _ (by decide) List.mem_cons_self⟩

end LineCalc
