import LineCalc.Expr
import LineCalc.Proofs.Chain.Join
/-!
# LineCalc.Proofs.Expr.Tight

Chains and **tight trees** are two views of the same expressions.

`Expr.chain` flattens a tree, and `Chain.tree` grows a tree from a chain, one
link at a time. The tree that is grown is tight and flattens to the chain
(`Chain.tight_tree`, `Chain.chain_tree`), and whatever tight tree flattens to a
chain, reducing the chain gives the value of the tree (`Expr.value_chain`).
-/

namespace LineCalc

namespace Expr

/-- The chain of a tree: its operands and operators, in order. -/
def chain : Expr → Chain
  | operand x => .single x
  | node op l r => l.chain.join op r.chain

@[simp] theorem chain_operand (x : Number) : (operand x).chain = .single x := rfl

@[simp] theorem chain_node (op : Op) (l r : Expr) :
    (node op l r).chain = l.chain.join op r.chain := rfl

theorem tokens_chain (e : Expr) : e.chain.tokens = e.tokens := by
  induction e with
  | operand x => rfl
  | node op l r ihl ihr => rw [chain_node, Chain.tokens_join, ihl, ihr, tokens]

/-- Operands do not get into the way of any operator. -/
theorem tight_node_operands (op : Op) (x y : Number) :
    (node op (operand x) (operand y)).Tight := ⟨nofun, nofun, trivial, trivial⟩

/-- A bound on the operator at the top of a tight tree holds of all its operators. -/
theorem Tight.le_of_mem_ops {e : Expr} (h : e.Tight) {k : Nat}
    (hk : ∀ o ∈ e.root?, k ≤ o.precedence) : ∀ o ∈ e.chain.ops, k ≤ o.precedence := by
  induction e generalizing k with
  | operand x =>
    intro o ho
    cases ho
  | node op l r ihl ihr =>
    obtain ⟨hleft, hright, htl, htr⟩ := h
    have hop : k ≤ op.precedence := hk op rfl
    intro o ho
    rw [chain_node, Chain.ops_join, List.mem_append, List.mem_cons] at ho
    rcases ho with ho | rfl | ho
    · exact ihl htl (fun p hp => Nat.le_trans hop (hleft p hp)) o ho
    · exact hop
    · exact ihr htr (fun p hp => Nat.le_trans hop (Nat.le_of_lt (hright p hp))) o ho

/-- Reducing the chain of a tight tree gives the value of the tree. -/
theorem value_chain {e : Expr} (h : e.Tight) : e.chain.value = e.value := by
  induction e with
  | operand x => exact Chain.value_single x
  | node op l r ihl ihr =>
    obtain ⟨hleft, hright, htl, htr⟩ := h
    have hl : ∀ o ∈ l.chain.ops, op.precedence ≤ o.precedence := htl.le_of_mem_ops hleft
    have hr : ∀ o ∈ r.chain.ops, op.precedence < o.precedence := htr.le_of_mem_ops hright
    rw [chain_node, Chain.value_join hl hr, ihl htl, ihr htr, value]

/-! ### Growing a tree -/

/-- The tree of an expression that goes on with one more link. The operator of
the link takes as its left operand everything that it does not bind more tightly
than. -/
def addLink : Expr → Link → Expr
  | operand x, link => node link.op (operand x) (operand link.operand)
  | node o l r, link =>
    if o.precedence < link.op.precedence then node o l (r.addLink link)
    else node link.op (node o l r) (operand link.operand)

theorem root?_addLink {e : Expr} {link : Link} {o : Op} (h : o ∈ (e.addLink link).root?) :
    o = link.op ∨ o ∈ e.root? := by
  cases e with
  | operand x => exact .inl (Option.some.inj h).symm
  | node p l r =>
    rw [addLink] at h
    split at h
    · exact .inr h
    · exact .inl (Option.some.inj h).symm

theorem Tight.addLink {e : Expr} (h : e.Tight) (link : Link) : (e.addLink link).Tight := by
  induction e with
  | operand x => exact tight_node_operands _ _ _
  | node o l r _ ihr =>
    obtain ⟨hleft, hright, htl, htr⟩ := h
    rw [Expr.addLink]
    split
    case isTrue hlt =>
      refine ⟨hleft, fun p hp => ?_, htl, ihr htr⟩
      rcases root?_addLink hp with rfl | hp
      · exact hlt
      · exact hright p hp
    case isFalse hge =>
      refine ⟨fun p hp => ?_, nofun, ⟨hleft, hright, htl, htr⟩, trivial⟩
      obtain rfl := Option.some.inj hp
      exact Nat.le_of_not_lt hge

theorem chain_addLink (e : Expr) (link : Link) :
    (e.addLink link).chain = e.chain.join link.op (.single link.operand) := by
  induction e with
  | operand x => rfl
  | node o l r _ ihr =>
    rw [addLink]
    split
    · rw [chain_node, ihr, chain_node, Chain.join_assoc]
    · rfl

end Expr

namespace Chain

/-- The tree that precedence gives to a chain. -/
def tree (c : Chain) : Expr := c.links.foldl Expr.addLink (.operand c.first)

theorem tight_tree (c : Chain) : c.tree.Tight := by
  have grow : ∀ (links : List Link) (e : Expr), e.Tight → (links.foldl Expr.addLink e).Tight := by
    intro links
    induction links with
    | nil => exact fun e h => h
    | cons link rest ih => exact fun e h => ih _ (h.addLink link)
  exact grow c.links _ trivial

theorem chain_tree (c : Chain) : c.tree.chain = c := by
  have grow : ∀ (links : List Link) (e : Expr),
      (links.foldl Expr.addLink e).chain = ⟨e.chain.first, e.chain.links ++ links⟩ := by
    intro links
    induction links with
    | nil =>
      intro e
      rw [List.foldl_nil, List.append_nil]
    | cons link rest ih =>
      intro e
      rw [List.foldl_cons, ih, Expr.chain_addLink]
      simp [join, single]
  exact grow c.links (.operand c.first)

theorem tokens_tree (c : Chain) : c.tree.tokens = c.tokens := by
  rw [← Expr.tokens_chain, chain_tree]

end Chain

/-- A sequence is well formed when it is the spelling of a tight tree. -/
theorem wellFormed_iff_exists_tight {ts : List Token} :
    WellFormed ts ↔ ∃ e : Expr, e.Tight ∧ e.tokens = ts := by
  rw [wellFormed_iff_exists_chain]
  constructor
  · intro h
    obtain ⟨c, rfl⟩ := h
    exact ⟨c.tree, c.tight_tree, c.tokens_tree⟩
  · intro h
    obtain ⟨e, -, rfl⟩ := h
    exact ⟨e.chain, e.tokens_chain⟩

/-- Reducing the tokens of a tight tree gives the value of the tree. -/
theorem Expr.reduce_tokens {e : Expr} (h : e.Tight) : reduce e.tokens = .ok e.value := by
  rw [← e.tokens_chain, reduce, Chain.ofTokens?_tokens]
  exact congrArg Except.ok (Expr.value_chain h)

end LineCalc
