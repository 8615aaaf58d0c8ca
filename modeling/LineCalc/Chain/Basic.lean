import LineCalc.Token.Basic
/-!
# LineCalc.Chain.Basic

A **chain** is a flat expression: a first operand and links, each an operator
with the operand behind it. Every chain alternates operands and operators by
construction, so what can be done to it needs no check and cannot fail.
`Chain.cons` puts an operand and an operator in front of a chain, and all chains
are built from single operands in this way (`Chain.induction`).

Token sequences alternate or they do not. `WellFormed` says when one does,
`Chain.ofTokens?` decides it and finds the chain, and `Chain.tokens` goes back;
`ofTokens?_eq_some_iff` says that the two are inverse.
-/

namespace LineCalc

/-- An operator and its second operand. -/
structure Link where
  op : Op
  operand : Number
  deriving Repr, DecidableEq

/-- A flat expression. -/
structure Chain where
  first : Number
  links : List Link
  deriving Repr, DecidableEq

/-- A token sequence is **well formed** when it starts with a number and goes on
with any number of operators, each followed by a number. -/
inductive WellFormed : List Token → Prop
  | single (x : Number) : WellFormed [.number x]
  | cons (x : Number) (op : Op) {rest : List Token} (h : WellFormed rest) :
    WellFormed (.number x :: .operator op :: rest)

namespace Chain

/-- The chain that is one operand. -/
def single (x : Number) : Chain := ⟨x, []⟩

/-- The chain `x op c`. -/
def cons (x : Number) (op : Op) (c : Chain) : Chain := ⟨x, ⟨op, c.first⟩ :: c.links⟩

/-- All chains are built from single operands by putting something in front. -/
@[elab_as_elim]
theorem induction {motive : Chain → Prop} (single : ∀ x, motive (single x))
    (cons : ∀ x op c, motive c → motive (cons x op c)) (c : Chain) : motive c := by
  obtain ⟨x, links⟩ := c
  induction links generalizing x with
  | nil => exact single x
  | cons link links ih => exact cons x link.op ⟨link.operand, links⟩ (ih link.operand)

/-- The tokens of a link. -/
def linkTokens (link : Link) : List Token := [.operator link.op, .number link.operand]

/-- The tokens of a chain. -/
def tokens (c : Chain) : List Token := .number c.first :: c.links.flatMap linkTokens

/-- The operators of a chain. -/
def ops (c : Chain) : List Op := c.links.map Link.op

/-- The chain that a sequence spells, if it is well formed. -/
def ofTokens? : List Token → Option Chain
  | [.number x] => some (single x)
  | .number x :: .operator op :: rest => (ofTokens? rest).map (cons x op)
  | _ => none

@[simp] theorem tokens_single (x : Number) : (single x).tokens = [.number x] := rfl

@[simp] theorem tokens_cons (x : Number) (op : Op) (c : Chain) :
    (cons x op c).tokens = .number x :: .operator op :: c.tokens := rfl

@[simp] theorem ops_single (x : Number) : (single x).ops = [] := rfl

@[simp] theorem ops_cons (x : Number) (op : Op) (c : Chain) : (cons x op c).ops = op :: c.ops := rfl

@[simp] theorem ofTokens?_tokens (c : Chain) : ofTokens? c.tokens = some c := by
  induction c using Chain.induction with
  | single x => rfl
  | cons x op c ih => rw [tokens_cons, ofTokens?, ih, Option.map_some]

theorem tokens_of_ofTokens? {ts : List Token} {c : Chain} (h : ofTokens? ts = some c) :
    c.tokens = ts := by
  fun_induction ofTokens? ts generalizing c with
  | case1 x =>
    obtain rfl := Option.some.inj h
    rfl
  | case2 x op rest ih =>
    obtain ⟨d, hd, rfl⟩ := Option.map_eq_some_iff.1 h
    rw [tokens_cons, ih hd]
  | case3 => contradiction

/-- Spelling a chain and reading its tokens are inverse. -/
theorem ofTokens?_eq_some_iff {ts : List Token} {c : Chain} :
    ofTokens? ts = some c ↔ c.tokens = ts :=
  ⟨tokens_of_ofTokens?, fun h => h ▸ ofTokens?_tokens c⟩

theorem wellFormed_tokens (c : Chain) : WellFormed c.tokens := by
  induction c using Chain.induction with
  | single x => exact .single x
  | cons x op c ih => exact .cons x op ih

end Chain

/-- The well-formed sequences are the spellings of chains. -/
theorem wellFormed_iff_exists_chain {ts : List Token} :
    WellFormed ts ↔ ∃ c : Chain, c.tokens = ts := by
  constructor
  · intro h
    induction h with
    | single x => exact ⟨.single x, rfl⟩
    | cons x op _ ih =>
      obtain ⟨c, rfl⟩ := ih
      exact ⟨.cons x op c, rfl⟩
  · rintro ⟨c, rfl⟩
    exact c.wellFormed_tokens

theorem wellFormed_iff_isSome {ts : List Token} : WellFormed ts ↔ (Chain.ofTokens? ts).isSome := by
  simp only [wellFormed_iff_exists_chain, Option.isSome_iff_exists, Chain.ofTokens?_eq_some_iff]

instance (ts : List Token) : Decidable (WellFormed ts) :=
  decidable_of_iff _ wellFormed_iff_isSome.symm

end LineCalc
