import LineCalc.Proofs.Expr.Tight
import LineCalc.Rpn.Compile
/-!
# LineCalc.Proofs.Rpn.Postorder

Compiled code is the **postorder listing** of the tree that precedence gives to a
chain, and the listing can be read back.

* A machine that holds trees in place of values rebuilds a tree from its code, so
  code determines the tree (`Expr.code_injective`).
* `Rpn.compileLinks_chain_append` is the invariant of the pass: at each moment what
  has been emitted, what is pending and what is still to come make up the code of
  the tight tree.
-/

namespace LineCalc

/-- The number of a token that is one. -/
def Token.number? : Token → Option Number
  | number x => some x
  | operator _ | endOfInput => none

namespace Rpn

/-! ### Trees in place of values -/

/-- Executes one instruction on a stack of trees, topmost first. -/
def Instr.build (stack : List Expr) : Instr → Option (List Expr)
  | push x => some (.operand x :: stack)
  | apply op =>
    match stack with
    | r :: l :: rest => some (.node op l r :: rest)
    | _ => none

/-- Executes code on a stack of trees. -/
def build (stack : List Expr) (code : Code) : Option (List Expr) := code.foldlM Instr.build stack

@[simp] theorem build_nil (stack : List Expr) : build stack [] = some stack := rfl

theorem build_cons (stack : List Expr) (i : Instr) (code : Code) :
    build stack (i :: code) = (i.build stack).bind fun stack => build stack code := by
  simp [build]

/-- The code of a tree puts the tree on the stack. -/
theorem build_code_append (e : Expr) (stack : List Expr) (more : Code) :
    build stack (e.code ++ more) = build (e :: stack) more := by
  induction e generalizing stack more with
  | operand x => rw [Expr.code, List.singleton_append, build_cons]; rfl
  | node op l r ihl ihr =>
    rw [Expr.code, List.append_assoc, List.append_assoc, ihl, ihr, List.singleton_append,
      build_cons]
    rfl

/-- The token that an instruction came from. -/
def Instr.token : Instr → Token
  | push x => .number x
  | apply op => .operator op

end Rpn

namespace Expr

theorem code_injective {e e' : Expr} (h : e.code = e'.code) : e = e' := by
  have build_code : ∀ e : Expr, Rpn.build [] e.code = some [e] := by
    intro e
    have hb := Rpn.build_code_append e [] []
    rwa [List.append_nil, Rpn.build_nil] at hb
  have hb := build_code e
  rw [h, build_code e'] at hb
  cases hb
  rfl

/-- The code of a tree has the tokens of the tree, each once. -/
theorem perm_tokens_code (e : Expr) : (e.code.map Rpn.Instr.token).Perm e.tokens := by
  induction e with
  | operand x => exact .refl _
  | node op l r ihl ihr =>
    rw [code, tokens, List.map_append, List.map_append]
    rw [List.append_assoc]
    refine (ihl.append (ihr.append_right _)).trans ?_
    exact List.perm_append_comm.append_left _

/-- The code of a tree has the operands of the tree, in order. -/
theorem filterMap_number?_code (e : Expr) :
    (e.code.map Rpn.Instr.token).filterMap Token.number? = e.tokens.filterMap Token.number? := by
  induction e with
  | operand x => rfl
  | node op l r ihl ihr =>
    have hop : Token.number? (.operator op) = none := rfl
    rw [code, tokens, List.map_append, List.map_append, List.filterMap_append,
      List.filterMap_append, List.filterMap_append, ihl, ihr, List.filterMap_cons_none hop]
    exact List.append_nil _

end Expr

namespace Rpn

/-! ### The pass -/

/-- An operator that waits on top of the stack is released first, unless what
comes next binds more tightly. -/
theorem compileLinks_cons {op : Op} {more : List Link}
    (h : ∀ link ∈ more.head?, link.op.precedence ≤ op.precedence) (pending : Pending) :
    compileLinks (op :: pending) more = .apply op :: compileLinks pending more := by
  cases more with
  | nil => rfl
  | cons link more =>
    have hfirst : goesFirst link.op op = true := decide_eq_true (h link rfl)
    rw [compileLinks, compileLinks, released, await, List.takeWhile_cons_of_pos hfirst,
      List.dropWhile_cons_of_pos hfirst]
    rfl

/-- An operator that binds more tightly than the one that waits on top of the
stack releases nothing. -/
theorem compileLinks_link {op : Op} {pending : Pending}
    (h : ∀ p ∈ pending.head?, p.precedence < op.precedence) (y : Number) (more : List Link) :
    compileLinks pending (⟨op, y⟩ :: more) = .push y :: compileLinks (op :: pending) more := by
  cases pending with
  | nil => rfl
  | cons p pending =>
    have hwaits : ¬ goesFirst op p = true := by
      have hlt := h p rfl
      simpa [goesFirst] using hlt
    rw [compileLinks, released, await, List.takeWhile_cons_of_neg hwaits,
      List.dropWhile_cons_of_neg hwaits]
    rfl

/-- The links of a tight tree are compiled to the code of the tree, whatever
waits and whatever comes behind, as long as the operator at the top of the tree
binds more tightly than what waits and at least as tightly as what comes. -/
theorem compileLinks_chain_append {e : Expr} (he : e.Tight) {pending : Pending}
    {more : List Link} (hp : ∀ p ∈ pending.head?, ∀ o ∈ e.root?, p.precedence < o.precedence)
    (hm : ∀ link ∈ more.head?, ∀ o ∈ e.root?, link.op.precedence ≤ o.precedence) :
    .push e.chain.first :: compileLinks pending (e.chain.links ++ more)
      = e.code ++ compileLinks pending more := by
  induction e generalizing pending more with
  | operand x => rfl
  | node op l r ihl ihr =>
    obtain ⟨hleft, hright, htl, htr⟩ := he
    have hpop : ∀ p ∈ pending.head?, p.precedence < op.precedence := fun p h => hp p h op rfl
    have hmop : ∀ link ∈ more.head?, link.op.precedence ≤ op.precedence := fun k h => hm k h op rfl
    -- the left operand: what comes behind it is the operator of the tree
    have hl : .push l.chain.first
          :: compileLinks pending (l.chain.links ++ ⟨op, r.chain.first⟩ :: (r.chain.links ++ more))
        = l.code ++ compileLinks pending (⟨op, r.chain.first⟩ :: (r.chain.links ++ more)) := by
      refine ihl htl (fun p h o ho => Nat.lt_of_lt_of_le (hpop p h) (hleft o ho)) ?_
      intro link hlink o ho
      obtain rfl := Option.some.inj hlink
      exact hleft o ho
    -- the right operand: what waits under it is the operator of the tree
    have hr : .push r.chain.first :: compileLinks (op :: pending) (r.chain.links ++ more)
        = r.code ++ compileLinks (op :: pending) more := by
      refine ihr htr ?_ fun link hlink o ho =>
        Nat.le_trans (hmop link hlink) (Nat.le_of_lt (hright o ho))
      intro p h o ho
      obtain rfl := Option.some.inj h
      exact hright o ho
    calc .push (l.chain.join op r.chain).first
          :: compileLinks pending ((l.chain.join op r.chain).links ++ more)
        _ = .push l.chain.first :: compileLinks pending
              (l.chain.links ++ ⟨op, r.chain.first⟩ :: (r.chain.links ++ more)) := by
          simp [Chain.join]
        _ = l.code ++ .push r.chain.first
              :: compileLinks (op :: pending) (r.chain.links ++ more) := by
          rw [hl, compileLinks_link hpop]
        _ = l.code ++ (r.code ++ .apply op :: compileLinks pending more) := by
          rw [hr, compileLinks_cons hmop]
        _ = (Expr.node op l r).code ++ compileLinks pending more := by
          simp [Expr.code]

end Rpn

/-- The tokens of a tight tree are compiled to the code of the tree. -/
theorem Expr.compile_tokens {e : Expr} (h : e.Tight) : compile e.tokens = .ok e.code := by
  have hlinks : .push e.chain.first :: Rpn.compileLinks [] (e.chain.links ++ [])
      = e.code ++ Rpn.compileLinks [] [] := Rpn.compileLinks_chain_append h nofun nofun
  rw [List.append_nil] at hlinks
  rw [← e.tokens_chain, compile, Chain.ofTokens?_tokens]
  show Except.ok (.push e.chain.first :: Rpn.compileLinks [] e.chain.links) = _
  rw [hlinks]
  exact congrArg Except.ok (List.append_nil _)

/-- Compiling a well-formed sequence is **lossless**: the code is the postorder
listing of one tree only, which is tight and has the tokens of the sequence. All
tight trees are listed in this way. -/
theorem compile_lossless :
    (∀ ts, WellFormed ts → ∃ e : Expr,
      compile ts = .ok e.code ∧ (∀ e' : Expr, e'.code = e.code → e' = e) ∧
        e.tokens = ts ∧ e.Tight ∧ (e.code.map Rpn.Instr.token).Perm ts ∧
        (e.code.map Rpn.Instr.token).filterMap Token.number? = ts.filterMap Token.number?) ∧
    (∀ e : Expr, e.Tight → compile e.tokens = .ok e.code) ∧
    ∀ ts ts', WellFormed ts → WellFormed ts' → compile ts = compile ts' → ts = ts' := by
  refine ⟨?_, fun e he => Expr.compile_tokens he, ?_⟩
  · intro ts hts
    obtain ⟨e, he, rfl⟩ := wellFormed_iff_exists_tight.mp hts
    exact ⟨e, Expr.compile_tokens he, fun e' h => Expr.code_injective h, rfl, he,
      e.perm_tokens_code, e.filterMap_number?_code⟩
  · intro ts ts' hts hts' h
    obtain ⟨e, he, rfl⟩ := wellFormed_iff_exists_tight.mp hts
    obtain ⟨e', he', rfl⟩ := wellFormed_iff_exists_tight.mp hts'
    rw [Expr.compile_tokens he, Expr.compile_tokens he'] at h
    have hee' : e = e' := Expr.code_injective (Except.ok.inj h)
    rw [hee']

/-- `a - b * c - d`: the second difference waits for nothing but the product. -/
example (a b c d : Number) :
    compile [.number a, .operator .sub, .number b, .operator .mul, .number c, .operator .sub,
        .number d]
      = .ok [.push a, .push b, .push c, .apply .mul, .apply .sub, .push d, .apply .sub] := rfl

end LineCalc
