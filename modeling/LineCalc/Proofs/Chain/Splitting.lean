import LineCalc.Proofs.Expr.Tight
import Mathlib.Logic.ExistsUnique
/-!
# LineCalc.Proofs.Chain.Splitting

Reduction as a recursion on token sequences: a sequence is split at the **last of
its weakest operators**, and that operator is applied to the values of the two
parts.

The operator at the top of a tight tree is the last of the weakest
(`Expr.Tight.isLastWeakest`), and there is only one such place in a sequence, so
splitting a sequence there is taking apart the tree that precedence gives to it.
-/

namespace LineCalc

/-- At place `i` of a sequence stands `op`, no operator of the sequence binds less
tightly, and all that stand behind it bind more tightly. -/
structure IsLastWeakest (ts : List Token) (i : Nat) (op : Op) : Prop where
  at_place : ts[i]? = some (.operator op)
  weakest : ∀ o, .operator o ∈ ts → op.precedence ≤ o.precedence
  last : ∀ j o, i < j → ts[j]? = some (.operator o) → op.precedence < o.precedence

namespace IsLastWeakest

variable {ts : List Token} {i j : Nat} {op op' : Op}

/-- Of two such places the first would have to bind less tightly than the second,
and the second is the weakest too. -/
theorem not_lt (h : IsLastWeakest ts i op) (h' : IsLastWeakest ts j op') : ¬ i < j := by
  intro hij
  have hlt : op.precedence < op'.precedence := h.last j op' hij h'.at_place
  have hle : op'.precedence ≤ op.precedence := h'.weakest op (List.mem_of_getElem? h.at_place)
  omega

theorem unique (h : IsLastWeakest ts i op) (h' : IsLastWeakest ts j op') : i = j := by
  rcases Nat.lt_trichotomy i j with hij | hij | hij
  · exact absurd hij (h.not_lt h')
  · exact hij
  · exact absurd hij (h'.not_lt h)

end IsLastWeakest

theorem Chain.mem_ops_iff {c : Chain} {o : Op} : o ∈ c.ops ↔ .operator o ∈ c.tokens := by
  induction c using Chain.induction with
  | single x => simp
  | cons x op c ih => simp [ih]

namespace Expr

/-- The top of a tight tree is the last of its weakest operators. -/
theorem Tight.isLastWeakest {op : Op} {l r : Expr} (h : (node op l r).Tight) :
    IsLastWeakest (node op l r).tokens l.tokens.length op := by
  have hall : ∀ o ∈ (node op l r).chain.ops, op.precedence ≤ o.precedence := by
    refine h.le_of_mem_ops ?_
    intro o ho
    obtain rfl := Option.some.inj ho
    exact Nat.le_refl _
  obtain ⟨-, hright, -, htr⟩ := h
  have hbehind : ∀ o ∈ r.chain.ops, op.precedence < o.precedence := htr.le_of_mem_ops hright
  refine ⟨?_, ?_, ?_⟩
  · rw [tokens, List.getElem?_append_right (Nat.le_refl _), Nat.sub_self]
    rfl
  · intro o ho
    rw [← tokens_chain, ← Chain.mem_ops_iff] at ho
    exact hall o ho
  · intro j o hj ho
    obtain ⟨k, rfl⟩ := Nat.exists_eq_add_of_lt hj
    have hlen : l.tokens.length ≤ l.tokens.length + k + 1 := by omega
    have hk : l.tokens.length + k + 1 - l.tokens.length = k + 1 := by omega
    rw [tokens, List.getElem?_append_right hlen, hk, List.getElem?_cons_succ] at ho
    refine hbehind o ?_
    rw [Chain.mem_ops_iff, tokens_chain]
    exact List.mem_of_getElem? ho

/-- A place of the last of the weakest operators is the top of the tree. -/
theorem Tight.exists_node_of_isLastWeakest {e : Expr} (h : e.Tight) {i : Nat} {op : Op}
    (hi : IsLastWeakest e.tokens i op) : ∃ l r, e = node op l r ∧ i = l.tokens.length := by
  cases e with
  | operand x =>
    have hmem := List.mem_of_getElem? hi.at_place
    simp [tokens] at hmem
  | node o l r =>
    obtain rfl := hi.unique h.isLastWeakest
    have hop := h.isLastWeakest.at_place
    rw [hi.at_place] at hop
    cases hop
    exact ⟨l, r, rfl, rfl⟩

@[simp] theorem take_tokens_node (op : Op) (l r : Expr) :
    (node op l r).tokens.take l.tokens.length = l.tokens := by
  rw [tokens, List.take_left]

@[simp] theorem drop_tokens_node (op : Op) (l r : Expr) :
    (node op l r).tokens.drop (l.tokens.length + 1) = r.tokens := by
  rw [tokens, ← List.drop_drop, List.drop_left, List.drop_succ_cons, List.drop_zero]

end Expr

/-- What it takes for `f` to value sequences by splitting them. -/
structure ValuesBySplitting (f : List Token → Number) : Prop where
  single : ∀ x, f [.number x] = x
  split : ∀ ts i op, WellFormed ts → IsLastWeakest ts i op →
    f ts = op.apply (f (ts.take i)) (f (ts.drop (i + 1)))

theorem ValuesBySplitting.eq_value {f : List Token → Number} (hf : ValuesBySplitting f) {e : Expr}
    (h : e.Tight) : f e.tokens = e.value := by
  induction e with
  | operand x => exact hf.single x
  | node op l r ihl ihr =>
    have hwf : WellFormed (Expr.node op l r).tokens := wellFormed_iff_exists_tight.mpr ⟨_, h, rfl⟩
    rw [hf.split _ _ _ hwf h.isLastWeakest, Expr.take_tokens_node, Expr.drop_tokens_node]
    obtain ⟨-, -, htl, htr⟩ := h
    rw [ihl htl, ihr htr, Expr.value]

/-- Reduction values sequences by splitting them at the last of the weakest
operators, and it is the only function that does. -/
theorem reduce_eq_splitting :
    (∀ x, reduce [.number x] = .ok x) ∧
    (∀ ts, WellFormed ts → (∀ x, ts ≠ [.number x]) → ∃! i, ∃ op, IsLastWeakest ts i op) ∧
    (∀ ts i op, WellFormed ts → IsLastWeakest ts i op →
      WellFormed (ts.take i) ∧ WellFormed (ts.drop (i + 1)) ∧
        ∃ x y, reduce (ts.take i) = .ok x ∧ reduce (ts.drop (i + 1)) = .ok y ∧
          reduce ts = .ok (op.apply x y)) ∧
    ∀ f, ValuesBySplitting f → ∀ ts, WellFormed ts → reduce ts = .ok (f ts) := by
  refine ⟨fun x => Expr.reduce_tokens (e := .operand x) trivial, ?_, ?_, ?_⟩
  · intro ts hts hne
    obtain ⟨e, he, rfl⟩ := wellFormed_iff_exists_tight.mp hts
    cases e with
    | operand x => exact absurd rfl (hne x)
    | node op l r =>
      refine ⟨_, ⟨op, he.isLastWeakest⟩, ?_⟩
      intro j hj
      obtain ⟨o, ho⟩ := hj
      exact ho.unique he.isLastWeakest
  · intro ts i op hts hi
    obtain ⟨e, he, rfl⟩ := wellFormed_iff_exists_tight.mp hts
    obtain ⟨l, r, rfl, rfl⟩ := he.exists_node_of_isLastWeakest hi
    have hvalue := Expr.reduce_tokens he
    obtain ⟨-, -, htl, htr⟩ := he
    rw [Expr.take_tokens_node, Expr.drop_tokens_node]
    exact ⟨wellFormed_iff_exists_tight.mpr ⟨l, htl, rfl⟩,
      wellFormed_iff_exists_tight.mpr ⟨r, htr, rfl⟩,
      l.value, r.value, Expr.reduce_tokens htl, Expr.reduce_tokens htr, hvalue⟩
  · intro f hf ts hts
    obtain ⟨e, he, rfl⟩ := wellFormed_iff_exists_tight.mp hts
    rw [Expr.reduce_tokens he, hf.eq_value he]

/-- Powers associate to the left like everything else: `a ^ b ^ c` is `(a ^ b) ^ c`. -/
example (a b c : Number) :
    reduce [.number a, .operator .pow, .number b, .operator .pow, .number c]
      = .ok (Op.pow.apply (Op.pow.apply a b) c) := rfl

end LineCalc
