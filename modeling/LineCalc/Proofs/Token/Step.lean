import LineCalc.Token.Line
/-!
# LineCalc.Proofs.Token.Step

All that **one call** of the lexer can do, as a relation with a rule for each
outcome (`Lexer.Step`), and the equivalence with the function that does it
(`Lexer.next_eq_iff`). A rule gives the bytes that are read as blanks and what
follows them, so proofs about texts need not open the lexer.
-/

namespace LineCalc

/-! ### Classes of bytes -/

theorem Byte.isBlank_of_isDigit {b : UInt8} (h : isDigit b) : isBlank b = false := by
  simp only [isDigit, Bool.and_eq_true, decide_eq_true_eq, UInt8.le_iff_toNat_le] at h
  simp only [isBlank, space, Bool.or_eq_false_iff, beq_eq_false_iff_ne, ne_eq,
    Bool.and_eq_false_iff, decide_eq_false_iff_not, UInt8.le_iff_toNat_le, ← UInt8.toNat_inj]
  have h30 : (0x30 : UInt8).toNat = 48 := rfl
  have h20 : (0x20 : UInt8).toNat = 32 := rfl
  have h0d : (0x0d : UInt8).toNat = 13 := rfl
  omega

theorem Byte.isDigit_of_isBlank {b : UInt8} (h : isBlank b) : isDigit b = false := by
  cases hdigit : isDigit b with
  | false => rfl
  | true =>
    rw [isBlank_of_isDigit hdigit] at h
    contradiction

theorem Op.isBlank_symbol (op : Op) : Byte.isBlank op.symbol = false := by
  cases op <;> decide

theorem Op.isDigit_symbol (op : Op) : Byte.isDigit op.symbol = false := by
  cases op <;> decide

theorem Op.symbol_ne_point (op : Op) : op.symbol ≠ Byte.point := by
  cases op <;> decide

theorem Sign.isBlank_symbol (s : Sign) : Byte.isBlank s.symbol = false := by
  cases s <;> decide

/-! ### Blanks in front -/

/-- What cannot extend a run of blanks: it does not start with one. -/
def NoBlankAhead (s : Bytes) : Prop := ∀ b ∈ s.head?, Byte.isBlank b = false

namespace NoBlankAhead

theorem nil : NoBlankAhead [] := nofun

theorem cons {b : UInt8} (h : Byte.isBlank b = false) (s : Bytes) : NoBlankAhead (b :: s) := by
  intro c hc
  obtain rfl := Option.some.inj hc
  exact h

theorem dropWhile (s : Bytes) : NoBlankAhead (s.dropWhile Byte.isBlank) :=
  Bytes.head?_dropWhile Byte.isBlank s

end NoBlankAhead

namespace Literal

/-- A literal starts with its sign or with a digit. -/
theorem noBlankAhead_text_append (l : Literal) (rest : Bytes) : NoBlankAhead (l.text ++ rest) := by
  obtain ⟨d, ds, hwhole, hd⟩ := l.exists_whole_eq_cons
  rw [text, hwhole]
  cases l.sign with
  | some s => exact .cons s.isBlank_symbol _
  | none => exact .cons (Byte.isBlank_of_isDigit hd) _

theorem noDigitAhead_iff {s : Bytes} : NoDigitAhead s ↔ s.takeWhile Byte.isDigit = [] := by
  cases s with
  | nil => simp [NoDigitAhead]
  | cons b s =>
    cases hb : Byte.isDigit b with
    | false => simp [NoDigitAhead, hb]
    | true => simp [NoDigitAhead, hb]

theorem scan?_eq_none_iff {s : Bytes} : scan? s = none ↔ NoDigitAhead (scanSign s).2 := by
  rw [noDigitAhead_iff]
  unfold scan?
  dsimp only
  split
  case isTrue h => simp [h]
  case isFalse h => simp [h]

end Literal

namespace Lexer

/-- `Step l answer l'`: asked at `l`, the lexer answers `answer` and is left at `l'`. -/
inductive Step : Lexer → Except ParseError Token → Lexer → Prop
  /-- Blanks are all that is left. -/
  | atEnd {blanks : Bytes} (hblanks : blanks.all Byte.isBlank) (p : Nat) (expecting : Expecting) :
    Step ⟨blanks, p, expecting⟩ (.ok .endOfInput) ⟨[], p + blanks.length, expecting⟩
  /-- A literal, as long as it can be. -/
  | number {blanks : Bytes} (hblanks : blanks.all Byte.isBlank) (literal : Literal) (rest : Bytes)
    (hstops : Literal.Stops literal.fraction rest) (p : Nat) :
    Step ⟨blanks ++ (literal.text ++ rest), p, .operand⟩ (.ok (.number literal.number))
      ⟨rest, p + blanks.length + literal.text.length, .operator⟩
  /-- An operator. -/
  | operator {blanks : Bytes} (hblanks : blanks.all Byte.isBlank) (op : Op) (rest : Bytes)
    (p : Nat) :
    Step ⟨blanks ++ op.symbol :: rest, p, .operator⟩ (.ok (.operator op))
      ⟨rest, p + blanks.length + 1, .operand⟩
  /-- A sign that no digit follows; it is passed by. -/
  | detachedSign {blanks : Bytes} (hblanks : blanks.all Byte.isBlank) (s : Sign) (rest : Bytes)
    (hrest : Literal.NoDigitAhead rest) (p : Nat) :
    Step ⟨blanks ++ s.symbol :: rest, p, .operand⟩
      (.error (.expectedDigits (p + blanks.length + 1))) ⟨rest, p + blanks.length + 1, .operand⟩
  /-- A byte that starts no literal. -/
  | noOperand {blanks : Bytes} (hblanks : blanks.all Byte.isBlank) (b : UInt8)
    (hblank : Byte.isBlank b = false) (hdigit : Byte.isDigit b = false)
    (hsign : Sign.ofByte? b = none) (rest : Bytes) (p : Nat) :
    Step ⟨blanks ++ b :: rest, p, .operand⟩ (.error (.expectedNumber (p + blanks.length)))
      ⟨b :: rest, p + blanks.length, .operand⟩
  /-- A byte that is no operator. -/
  | noOperator {blanks : Bytes} (hblanks : blanks.all Byte.isBlank) (b : UInt8)
    (hblank : Byte.isBlank b = false) (hop : Op.ofByte? b = none) (rest : Bytes) (p : Nat) :
    Step ⟨blanks ++ b :: rest, p, .operator⟩ (.error (.unexpectedByte b (p + blanks.length)))
      ⟨b :: rest, p + blanks.length, .operator⟩

theorem skipBlanks_append {blanks s : Bytes} (hblanks : blanks.all Byte.isBlank)
    (hs : NoBlankAhead s) (p : Nat) (expecting : Expecting) :
    skipBlanks ⟨blanks ++ s, p, expecting⟩ = ⟨s, p + blanks.length, expecting⟩ := by
  simp only [skipBlanks, Bytes.takeWhile_append_of_all hblanks hs,
    Bytes.dropWhile_append_of_all hblanks hs]

/-- The answer of the lexer where an operand is expected and something is left. -/
theorem next_operand {blanks s : Bytes} (hblanks : blanks.all Byte.isBlank) (hs : NoBlankAhead s)
    (hne : s ≠ []) (p : Nat) :
    next ⟨blanks ++ s, p, .operand⟩ = readOperand ⟨s, p + blanks.length, .operand⟩ := by
  unfold next
  rw [skipBlanks_append hblanks hs]
  cases s with
  | nil => exact absurd rfl hne
  | cons b s => rfl

/-- The answer of the lexer where an operator is expected and `b` comes next. -/
theorem next_operator {blanks : Bytes} (hblanks : blanks.all Byte.isBlank) {b : UInt8}
    (hb : Byte.isBlank b = false) (rest : Bytes) (p : Nat) :
    next ⟨blanks ++ b :: rest, p, .operator⟩
      = readOperator ⟨b :: rest, p + blanks.length, .operator⟩ b rest := by
  unfold next
  rw [skipBlanks_append hblanks (.cons hb rest)]

theorem Step.next_eq {l l' : Lexer} {answer : Except ParseError Token} (h : Step l answer l') :
    l.next = (answer, l') := by
  cases h with
  | atEnd hblanks p expecting =>
    have hskip := skipBlanks_append hblanks .nil p expecting
    rw [List.append_nil] at hskip
    unfold next
    rw [hskip]
  | number hblanks literal rest hstops p =>
    have hne : literal.text ++ rest ≠ [] :=
      List.append_ne_nil_of_left_ne_nil literal.text_ne_nil rest
    rw [next_operand hblanks (literal.noBlankAhead_text_append rest) hne, readOperand,
      Literal.scan?_text_append hstops]
  | operator hblanks op rest p =>
    rw [next_operator hblanks op.isBlank_symbol, readOperator, Op.ofByte?_symbol]
  | detachedSign hblanks s rest hrest p =>
    have hsign : Literal.scanSign (s.symbol :: rest) = (some s, rest) := by
      rw [Literal.scanSign, Sign.ofByte?_symbol]
    have hscan : Literal.scan? (s.symbol :: rest) = none := by
      rwa [Literal.scan?_eq_none_iff, hsign]
    rw [next_operand hblanks (.cons s.isBlank_symbol rest) (List.cons_ne_nil _ _),
      readOperand, hscan, hsign]
  | noOperand hblanks b hblank hdigit hsign rest p =>
    have hsign : Literal.scanSign (b :: rest) = (none, b :: rest) := by
      rw [Literal.scanSign, hsign]
    have hscan : Literal.scan? (b :: rest) = none := by
      rw [Literal.scan?_eq_none_iff, hsign]
      intro c hc
      obtain rfl := Option.some.inj hc
      exact hdigit
    rw [next_operand hblanks (.cons hblank rest) (List.cons_ne_nil _ _), readOperand, hscan, hsign]
  | noOperator hblanks b hblank hop rest p =>
    rw [next_operator hblanks hblank, readOperator, hop]

/-- The answer follows one of the rules. -/
theorem step_next (l : Lexer) : Step l l.next.1 l.next.2 := by
  obtain ⟨text, p, expecting⟩ := l
  have hsplit : text.takeWhile Byte.isBlank ++ text.dropWhile Byte.isBlank = text :=
    List.takeWhile_append_dropWhile
  have hblanks : (text.takeWhile Byte.isBlank).all Byte.isBlank := List.all_takeWhile
  have hs := NoBlankAhead.dropWhile text
  generalize text.takeWhile Byte.isBlank = blanks at hsplit hblanks
  generalize text.dropWhile Byte.isBlank = s at hsplit hs
  subst hsplit
  suffices h : ∃ answer l', Step ⟨blanks ++ s, p, expecting⟩ answer l' by
    obtain ⟨answer, l', h⟩ := h
    rw [h.next_eq]
    exact h
  -- `s` is what stands behind the blanks; what is expected there decides who reads it
  match s, expecting with
  | [], _ =>
    rw [List.append_nil]
    exact ⟨_, _, .atEnd hblanks p _⟩
  | b :: rest, .operator =>
    have hblank := hs b rfl
    cases hop : Op.ofByte? b with
    | none => exact ⟨_, _, .noOperator hblanks b hblank hop rest p⟩
    | some op =>
      obtain rfl := Op.ofByte?_eq_some_iff.mp hop
      exact ⟨_, _, .operator hblanks op rest p⟩
  | b :: rest, .operand =>
    cases hscan : Literal.scan? (b :: rest) with
    | some found =>
      obtain ⟨literal, rest'⟩ := found
      rw [Literal.eq_text_append_of_scan? hscan]
      exact ⟨_, _, .number hblanks literal rest' (Literal.stops_of_scan? hscan) p⟩
    | none =>
      rw [Literal.scan?_eq_none_iff] at hscan
      cases hsign : Sign.ofByte? b with
      | none =>
        simp only [Literal.scanSign, hsign] at hscan
        exact ⟨_, _, .noOperand hblanks b (hs b rfl) (hscan b rfl) hsign rest p⟩
      | some s =>
        simp only [Literal.scanSign, hsign] at hscan
        obtain rfl := Sign.ofByte?_eq_some_iff.mp hsign
        exact ⟨_, _, .detachedSign hblanks s rest hscan p⟩

/-- The lexer answers by the rules, and by these alone. -/
theorem next_eq_iff {l l' : Lexer} {answer : Except ParseError Token} :
    l.next = (answer, l') ↔ Step l answer l' := by
  constructor
  · intro h
    have hstep := l.step_next
    rwa [h] at hstep
  · exact Step.next_eq

end Lexer

end LineCalc
