import LineCalc.Proofs.Rpn.Postorder
import Mathlib.Data.List.Induction
/-!
# LineCalc.Proofs.Engines

The two engines on **arbitrary token sequences**. Both refuse the same sequences,
in the same words and before anything is applied; on all others both give the
value of the tree that precedence gives to the sequence (`engines_agree`).
-/

namespace LineCalc

/-- A sequence is well formed when it has an odd number of places, numbers at the
even ones and operators at the odd ones. -/
theorem wellFormed_iff_places {ts : List Token} :
    WellFormed ts ↔ ts.length % 2 = 1 ∧ ∀ i t, ts[i]? = some t →
      (i % 2 = 0 → ∃ x, t = .number x) ∧ (i % 2 = 1 → ∃ op, t = .operator op) := by
  constructor
  · intro h
    induction h with
    | single x =>
      refine ⟨rfl, ?_⟩
      intro i t ht
      obtain ⟨rfl, rfl⟩ : i = 0 ∧ .number x = t := by
        cases i with
        | zero => exact ⟨rfl, Option.some.inj ht⟩
        | succ i => cases ht
      exact ⟨fun _ => ⟨x, rfl⟩, nofun⟩
    | cons x op h ih =>
      obtain ⟨hlen, hplaces⟩ := ih
      refine ⟨by simp only [List.length_cons]; omega, ?_⟩
      intro i t ht
      match i, ht with
      | 0, rfl => exact ⟨fun _ => ⟨x, rfl⟩, nofun⟩
      | 1, rfl => exact ⟨nofun, fun _ => ⟨op, rfl⟩⟩
      | i + 2, ht =>
        obtain ⟨heven, hodd⟩ := hplaces i t ht
        exact ⟨fun h => heven (by omega), fun h => hodd (by omega)⟩
  · intro h
    obtain ⟨hlen, hplaces⟩ := h
    -- two places at a time, so that even places stay even
    induction ts using List.twoStepInduction with
    | nil => cases hlen
    | singleton t =>
      obtain ⟨x, rfl⟩ := (hplaces 0 t rfl).1 rfl
      exact .single x
    | cons_cons t u rest ih _ =>
      obtain ⟨x, rfl⟩ := (hplaces 0 t rfl).1 rfl
      obtain ⟨op, rfl⟩ := (hplaces 1 u rfl).2 rfl
      simp only [List.length_cons] at hlen
      refine .cons x op (ih (by omega) ?_)
      intro i t ht
      obtain ⟨heven, hodd⟩ := hplaces (i + 2) t ht
      exact ⟨fun h => heven (by omega), fun h => hodd (by omega)⟩

/-- An observer does not change the outcome. -/
theorem Reduction.outcome_ofTokens (ts : List Token) : (ofTokens ts).outcome = reduce ts := by
  unfold ofTokens reduce
  cases Chain.ofTokens? ts with
  | none => rfl
  | some c => exact congrArg Except.ok c.first_getLast_trace

theorem Chain.ofTokens?_eq_none {ts : List Token} (h : ¬ WellFormed ts) : ofTokens? ts = none := by
  rwa [wellFormed_iff_isSome, Option.not_isSome_iff_eq_none] at h

/-- The **engines agree** on every sequence: a well-formed one has one value for
both, observed or not, and any other is refused by both, before an observer sees
anything. -/
theorem engines_agree (ts : List Token) :
    (WellFormed ts → ∃ code x, compile ts = .ok code ∧ Rpn.run code = .ok x ∧
      reduce ts = .ok x ∧ (Reduction.ofTokens ts).outcome = .ok x) ∧
    (¬ WellFormed ts → compile ts = .error .malformed ∧ reduce ts = .error .malformed ∧
      Reduction.ofTokens ts = ⟨[], .error .malformed⟩ ∧
      EvalError.malformed.message = Bytes.ofString "Malformed token sequence") := by
  constructor
  · intro hts
    obtain ⟨e, he, rfl⟩ := wellFormed_iff_exists_tight.mp hts
    have hreduce := Expr.reduce_tokens he
    refine ⟨e.code, e.value, Expr.compile_tokens he, e.run_code, hreduce, ?_⟩
    rw [Reduction.outcome_ofTokens, hreduce]
  · intro hts
    have hnone := Chain.ofTokens?_eq_none hts
    refine ⟨?_, ?_, ?_, rfl⟩
    · rw [compile, hnone]
    · rw [reduce, hnone]
    · rw [Reduction.ofTokens, hnone]

end LineCalc
