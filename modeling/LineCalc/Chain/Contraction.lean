import LineCalc.Chain.Basic
/-!
# LineCalc.Chain.Contraction

A **contraction** applies a single operator of a chain: the operator and its two
operands are replaced by the value, and everything else stays where it is. Any
operator may be chosen, so contraction says what a reduction step does but not
which one comes next.

`tokens_contract` describes it on tokens, where it replaces three neighbours by
one.
-/

namespace LineCalc.Chain

/-- Applies the operator with `i` operators in front of it, along the links
behind `x`. -/
def contractLinks (x : Number) : List Link → Nat → Option Chain
  | [], _ => none
  | link :: rest, 0 => some ⟨link.op.apply x link.operand, rest⟩
  | link :: rest, i + 1 => (contractLinks link.operand rest i).map (cons x link.op)

/-- Applies the operator with `i` operators in front of it, if there is one. -/
def contract (c : Chain) (i : Nat) : Option Chain := contractLinks c.first c.links i

@[simp] theorem contract_single (x : Number) (i : Nat) : (single x).contract i = none := rfl

@[simp] theorem contract_cons_zero (x : Number) (op : Op) (c : Chain) :
    (cons x op c).contract 0 = some ⟨op.apply x c.first, c.links⟩ := rfl

@[simp] theorem contract_cons_succ (x : Number) (op : Op) (c : Chain) (i : Nat) :
    (cons x op c).contract (i + 1) = (c.contract i).map (cons x op) := rfl

/-- A contraction removes its operator from the chain and no other. -/
theorem ops_contract {c d : Chain} {i : Nat} (h : c.contract i = some d) :
    d.ops = c.ops.eraseIdx i := by
  induction c using Chain.induction generalizing i d with
  | single x => simp at h
  | cons x op c ih =>
    cases i with
    | zero =>
      obtain rfl := Option.some.inj h
      rfl
    | succ i =>
      rw [contract_cons_succ, Option.map_eq_some_iff] at h
      obtain ⟨e, he, rfl⟩ := h
      simp [ih he]

/-- A contraction replaces an operand, an operator and an operand by the value. -/
theorem tokens_contract {c d : Chain} {i : Nat} (h : c.contract i = some d) :
    ∃ before a op b behind,
      c.tokens = before ++ .number a :: .operator op :: .number b :: behind ∧
      d.tokens = before ++ .number (op.apply a b) :: behind ∧
      before.length = 2 * i := by
  induction c using Chain.induction generalizing i d with
  | single x => simp at h
  | cons x op c ih =>
    cases i with
    | zero =>
      obtain rfl := Option.some.inj h
      exact ⟨[], x, op, c.first, c.links.flatMap linkTokens, rfl, rfl, rfl⟩
    | succ i =>
      rw [contract_cons_succ, Option.map_eq_some_iff] at h
      obtain ⟨e, he, rfl⟩ := h
      obtain ⟨before, a, o, b, behind, hc, he, hlen⟩ := ih he
      refine ⟨.number x :: .operator op :: before, a, o, b, behind, ?_, ?_, ?_⟩
      · rw [tokens_cons, hc, List.cons_append, List.cons_append]
      · rw [tokens_cons, he, List.cons_append, List.cons_append]
      · rw [List.length_cons, List.length_cons, hlen]
        omega

end LineCalc.Chain
