import LineCalc.Proofs.Rpn.Balance
import Mathlib.Data.List.Perm.Subperm
import Mathlib.Logic.Relation
/-!
# LineCalc.Proofs.Rpn.Space

Neither compiling nor running needs more than a **fixed number of places**, however long
the sequence.

`Pass.Step` is the pass over a sequence at its smallest step: one token is read, or one
operator is released. All its moments keep one invariant (`Pass.Sound`): the pending
operators bind more tightly from the bottom to the top, since an operator releases what
binds equally before it waits itself, so there is one for each tier at most; and the code so
far leaves a value for each pending operator, and one more once an operand has been read.
So the height of the values hangs on the height of the operators.
-/

namespace LineCalc.Rpn

open Relation (ReflTransGen)

/-! ### The pass, step by step -/

/-- A moment of the pass: the code so far, the operators that wait, the latest first, and
the tokens that are still to be read. -/
structure Pass where
  code : Code
  pending : Pending
  unread : List Token

namespace Pass

/-- The moment before the first token is read. -/
def start (ts : List Token) : Pass := ⟨[], [], ts⟩

/-- The step from one moment to the next. -/
inductive Step : Pass → Pass → Prop
  /-- A number is pushed. -/
  | push (code : Code) (pending : Pending) (x : Number) (unread : List Token) :
    Step ⟨code, pending, .number x :: unread⟩ ⟨code ++ [.push x], pending, unread⟩
  /-- The operator that is next releases the one on top of the stack. -/
  | release {next op : Op} (hfirst : goesFirst next op = true) (code : Code) (pending : Pending)
    (unread : List Token) :
    Step ⟨code, op :: pending, .operator next :: unread⟩
      ⟨code ++ [.apply op], pending, .operator next :: unread⟩
  /-- The operator that is next releases nothing more, and waits. -/
  | await {next : Op} {pending : Pending} (hnone : ∀ op ∈ pending.head?, goesFirst next op = false)
    (code : Code) (unread : List Token) :
    Step ⟨code, pending, .operator next :: unread⟩ ⟨code, next :: pending, unread⟩
  /-- Nothing is left to read, and the operator on top of the stack is released. -/
  | flush (code : Code) (op : Op) (pending : Pending) :
    Step ⟨code, op :: pending, []⟩ ⟨code ++ [.apply op], pending, []⟩

/-- What comes next is determined. -/
theorem rightUnique_step : Relator.RightUnique Step := by
  intro p q q' h h'
  cases h with
  | push => cases h'; rfl
  | @release next op hfirst =>
    cases h' with
    | release => rfl
    | await hnone =>
      rw [hnone op rfl] at hfirst
      contradiction
  | @await next pending hnone =>
    cases h' with
    | @release _ op hfirst =>
      rw [hnone op rfl] at hfirst
      contradiction
    | await => rfl
  | flush => cases h'; rfl

/-- An operator releases what may go first, one by one, and then waits. -/
theorem reach_await (next : Op) (code : Code) (pending : Pending) (unread : List Token) :
    ReflTransGen Step ⟨code, pending, .operator next :: unread⟩
      ⟨code ++ (released next pending).map .apply, Rpn.await next pending, unread⟩ := by
  induction pending generalizing code with
  | nil =>
    rw [released, List.takeWhile_nil, List.map_nil, List.append_nil]
    exact .single (.await (by simp) code unread)
  | cons op pending ih =>
    cases hfirst : goesFirst next op with
    | true =>
      have hrest := ih (code ++ [.apply op])
      rw [released, Rpn.await, List.takeWhile_cons_of_pos hfirst, List.dropWhile_cons_of_pos hfirst,
        List.map_cons, List.append_cons]
      exact .head (.release hfirst code pending unread) hrest
    | false =>
      have hwaits : ¬ goesFirst next op = true := by simp [hfirst]
      rw [released, Rpn.await, List.takeWhile_cons_of_neg hwaits,
        List.dropWhile_cons_of_neg hwaits, List.map_nil, List.append_nil]
      refine .single (.await ?_ code unread)
      intro o ho
      obtain rfl := Option.some.inj ho
      exact hfirst

/-- At the end all that waits is released. -/
theorem reach_flush (code : Code) (pending : Pending) :
    ReflTransGen Step ⟨code, pending, []⟩ ⟨code ++ pending.map .apply, [], []⟩ := by
  induction pending generalizing code with
  | nil => rw [List.map_nil, List.append_nil]
  | cons op pending ih =>
    rw [List.map_cons, List.append_cons]
    exact .head (.flush code op pending) (ih _)

/-- The pass over links emits the code that they are compiled to, but for the operators
that wait behind them. -/
theorem exists_reach_links (links : List Link) (code : Code) (pending : Pending)
    (unread : List Token) : ∃ emitted,
      ReflTransGen Step ⟨code, pending, links.flatMap Chain.linkTokens ++ unread⟩
        ⟨code ++ emitted, pendingAfter pending links, unread⟩ ∧
      compileLinks pending links = emitted ++ (pendingAfter pending links).map .apply := by
  induction links generalizing code pending with
  | nil => exact ⟨[], by rw [List.append_nil]; exact .refl, rfl⟩
  | cons link links ih =>
    obtain ⟨op, y⟩ := link
    obtain ⟨emitted, hreach, hcode⟩ :=
      ih (code ++ (released op pending).map .apply ++ [.push y]) (Rpn.await op pending)
    have hpush := Step.push (code ++ (released op pending).map .apply) (Rpn.await op pending) y
      (links.flatMap Chain.linkTokens ++ unread)
    have hlink := (reach_await op code pending _).trans (.head hpush hreach)
    refine ⟨(released op pending).map .apply ++ .push y :: emitted, ?_, ?_⟩
    · simpa [Chain.linkTokens, pendingAfter] using hlink
    · simp [compileLinks, pendingAfter, hcode]

/-- The end of the pass is final. -/
theorem eq_of_reach_end {code : Code} {p : Pass} (h : ReflTransGen Step ⟨code, [], []⟩ p) :
    p = ⟨code, [], []⟩ := by
  rcases h.cases_head with rfl | ⟨q, hstep, -⟩
  · rfl
  · cases hstep

/-- The pass over a chain emits its code. -/
theorem reach_compile (c : Chain) :
    ReflTransGen Step (start c.tokens) ⟨c.compile, [], []⟩ := by
  obtain ⟨emitted, hreach, hcode⟩ := exists_reach_links c.links [.push c.first] [] []
  rw [List.append_nil] at hreach
  have hend := hreach.trans (reach_flush _ _)
  rw [List.append_assoc, ← hcode] at hend
  exact .head (.push [] [] c.first _) hend

end Pass

/-! ### Pending operators -/

/-- The operators bind more tightly from the bottom of the stack to its top. -/
def Rising (pending : Pending) : Prop :=
  pending.Pairwise fun later earlier => earlier.precedence < later.precedence

namespace Rising

/-- There is one operator for each tier at most. -/
theorem length_le {pending : Pending} (h : Rising pending) : pending.length ≤ 3 := by
  have hnodup : (pending.map Op.precedence).Nodup := List.pairwise_map.mpr (h.imp Nat.ne_of_gt)
  have hsubset : pending.map Op.precedence ⊆ Op.tiers := by
    intro tier htier
    obtain ⟨op, -, rfl⟩ := List.mem_map.mp htier
    exact op.precedence_mem_tiers
  have hlength := (hnodup.subperm hsubset).length_le
  rwa [List.length_map] at hlength

/-- An operator that releases nothing binds more tightly than all that wait. -/
theorem await {pending : Pending} (h : Rising pending) {next : Op}
    (hnone : ∀ op ∈ pending.head?, goesFirst next op = false) : Rising (next :: pending) := by
  refine List.pairwise_cons.mpr ⟨?_, h⟩
  cases pending with
  | nil => simp
  | cons top pending =>
    have htop : top.precedence < next.precedence := by
      simpa [goesFirst] using hnone top rfl
    intro op hop
    rcases List.mem_cons.mp hop with rfl | hop
    · exact htop
    · exact Nat.lt_trans (List.rel_of_pairwise_cons h hop) htop

end Rising

/-! ### Values -/

/-- Wherever the code has come to, it has left one value at least and four at most. -/
def Shallow (code : Code) : Prop :=
  ∀ before, before <+: code → before ≠ [] →
    applies before + 1 ≤ pushes before ∧ pushes before ≤ applies before + 4

namespace Shallow

theorem concat {code : Code} (h : Shallow code) {i : Instr} {n : Nat} (hn : n ≤ 3)
    (hheight : pushes (code ++ [i]) = applies (code ++ [i]) + n + 1) : Shallow (code ++ [i]) := by
  intro before hbefore hne
  rcases List.prefix_concat_iff.mp hbefore with rfl | hbefore
  · omega
  · exact h before hbefore hne

/-- Shallow code runs, and its values never number more than four. -/
theorem exists_exec {code before : Code} (h : Shallow code) (hbefore : before <+: code) :
    ∃ stack, exec [] before = .ok stack ∧ stack.length ≤ 4 := by
  have hruns : ¬ Overdraws 0 before := by
    rintro ⟨start, hstart, hne, hle⟩
    have hlower := (h start (hstart.trans hbefore) hne).1
    omega
  obtain ⟨stack, hexec, hlength⟩ := exists_exec_eq hruns
  refine ⟨stack, hexec, ?_⟩
  by_cases hne : before = []
  · subst hne
    simp only [pushes_nil, applies_nil] at hlength
    omega
  · have hupper := (h before hbefore hne).2
    omega

end Shallow

/-! ### All moments of the pass -/

namespace Pass

/-- What holds at each moment of the pass over a well-formed sequence. -/
structure Sound (p : Pass) : Prop where
  rising : Rising p.pending
  shallow : Shallow p.code
  /-- There is a value for each pending operator, its first operand. If an operand has been
  read last, there is one value more. -/
  height : (WellFormed p.unread ∧ pushes p.code = applies p.code + p.pending.length) ∨
    ((∃ x, WellFormed (.number x :: p.unread)) ∧
      pushes p.code = applies p.code + p.pending.length + 1)

namespace Sound

theorem start {ts : List Token} (h : WellFormed ts) : Sound (start ts) where
  rising := .nil
  shallow := fun _ hbefore hne => absurd (List.prefix_nil.mp hbefore) hne
  height := .inl ⟨h, rfl⟩

/-- An operator that is released finds its operands. -/
theorem release {code : Code} {op : Op} {pending : Pending} {unread : List Token}
    (h : Sound ⟨code, op :: pending, unread⟩) (hunread : ¬ WellFormed unread) :
    Sound ⟨code ++ [.apply op], pending, unread⟩ := by
  obtain ⟨hrising, hshallow, hheight⟩ := h
  obtain ⟨hbehind, hheight⟩ := hheight.resolve_left fun hleft => hunread hleft.1
  have hless : Rising pending := hrising.of_cons
  have hheight' : pushes (code ++ [.apply op])
      = applies (code ++ [.apply op]) + pending.length + 1 := by
    simp only [pushes_append, applies_append, pushes_apply, applies_apply, pushes_nil, applies_nil,
      List.length_cons] at hheight ⊢
    omega
  exact ⟨hless, hshallow.concat hless.length_le hheight', .inr ⟨hbehind, hheight'⟩⟩

theorem step {p q : Pass} (h : Sound p) (hstep : Step p q) : Sound q := by
  cases hstep with
  | push code pending x unread =>
    obtain ⟨hrising, hshallow, ⟨hunread, hheight⟩ | ⟨⟨y, hunread⟩, -⟩⟩ := h
    · have hheight' : pushes (code ++ [.push x])
          = applies (code ++ [.push x]) + pending.length + 1 := by
        simp only [pushes_append, applies_append, pushes_push, applies_push, pushes_nil,
          applies_nil] at hheight ⊢
        omega
      exact ⟨hrising, hshallow.concat hrising.length_le hheight', .inr ⟨⟨x, hunread⟩, hheight'⟩⟩
    · cases hunread
  | release hfirst code pending unread => exact h.release nofun
  | @await next pending hnone code unread =>
    obtain ⟨hrising, hshallow, ⟨hunread, -⟩ | ⟨⟨y, hunread⟩, hheight⟩⟩ := h
    · cases hunread
    · cases hunread with
      | cons _ _ hunread => exact ⟨hrising.await hnone, hshallow, .inl ⟨hunread, hheight⟩⟩
  | flush code op pending => exact h.release nofun

theorem reach {p q : Pass} (h : Sound p) (hreach : ReflTransGen Step p q) : Sound q := by
  induction hreach with
  | refl => exact h
  | tail _ hstep ih => exact ih.step hstep

end Sound

end Pass

/-- Compiling `ts` to `code` and running the code take a bounded number of places. -/
structure ConstantSpace (ts : List Token) (code : Code) : Prop where
  /-- The pass over the tokens ends with the code, and each of its moments leads there. -/
  ends : ∀ p, ReflTransGen Pass.Step (.start ts) p → ReflTransGen Pass.Step p ⟨code, [], []⟩
  /-- At every moment of the pass the pending operators bind more tightly from the bottom to
  the top, and three of them are pending at most. -/
  pending : ∀ p, ReflTransGen Pass.Step (.start ts) p → Rising p.pending ∧ p.pending.length ≤ 3
  /-- Wherever the code has come to, it has left one value at least and four at most. -/
  shallow : Shallow code
  /-- In the end the code has left one value. -/
  balance : pushes code = applies code + 1
  /-- No beginning of the code underflows, or has more than four values on the stack. -/
  runs : ∀ before, before <+: code → ∃ stack, exec [] before = .ok stack ∧ stack.length ≤ 4

/-- The engine that compiles works in **constant space**, however long the sequence: there
are three pending operators at most, and four values at most. -/
theorem compile_in_constant_space (ts : List Token) (h : WellFormed ts) :
    ∃ code, compile ts = .ok code ∧ ConstantSpace ts code := by
  obtain ⟨c, rfl⟩ := wellFormed_iff_exists_chain.mp h
  have hends := Pass.reach_compile c
  obtain ⟨-, hshallow, hheight⟩ := (Pass.Sound.start h).reach hends
  refine ⟨c.compile, ?_, ?_, ?_, hshallow, ?_, fun before => hshallow.exists_exec⟩
  · rw [compile, Chain.ofTokens?_tokens]
  · intro p hp
    rcases ReflTransGen.total_of_right_unique Pass.rightUnique_step hp hends with h | h
    · exact h
    · rw [Pass.eq_of_reach_end h]
  · intro p hp
    have hrising := ((Pass.Sound.start h).reach hp).rising
    exact ⟨hrising, hrising.length_le⟩
  · obtain ⟨hunread, -⟩ | ⟨-, hbalance⟩ := hheight
    · cases hunread
    · exact hbalance

/-- `1 + 2 * 3 ^ 4` takes all the places there are: three operators wait while the code
pushes four numbers. -/
theorem compile_in_constant_space_rising :
    WellFormed [.number (.plain 1), .operator .add, .number (.plain 2), .operator .mul,
      .number (.plain 3), .operator .pow, .number (.plain 4)] ∧
    ConstantSpace [.number (.plain 1), .operator .add, .number (.plain 2), .operator .mul,
      .number (.plain 3), .operator .pow, .number (.plain 4)]
      [.push (.plain 1), .push (.plain 2), .push (.plain 3), .push (.plain 4), .apply .pow,
        .apply .mul, .apply .add] := by
  have hwf : WellFormed [.number (.plain 1), .operator .add, .number (.plain 2), .operator .mul,
      .number (.plain 3), .operator .pow, .number (.plain 4)] := by decide
  obtain ⟨code, hcode, hspace⟩ := compile_in_constant_space _ hwf
  obtain rfl := Except.ok.inj hcode
  exact ⟨hwf, hspace⟩

end LineCalc.Rpn
