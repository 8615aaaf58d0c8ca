import LineCalc.Proofs.CommandLine.Arguments
import LineCalc.Proofs.Token.Restart
/-!
# LineCalc.Proofs.CommandLine.Operands

An expression may be **spread over the arguments**, an operand or an operator in each,
as it is written with blanks between them. Negative numbers and a lone `-` have the
hyphen that flags start with, and yet no operand and no operator looks like a flag
(`looksLikeFlag_of_tokenize`). The words are joined by spaces, and the line is read as
the operands and operators one after the other (`tokenize_joinWith_spread`).

An operand need not be a single number: any text will do that is an expression by
itself.
-/

namespace LineCalc

/-! ### Blanks around a line -/

theorem tokenize_append_blanks {line blanks : Bytes} {ts : List Token} (h : tokenize line = .ok ts)
    (hblanks : blanks.all Byte.isBlank) : tokenize (line ++ blanks) = .ok ts := by
  obtain ⟨s, rfl, rfl⟩ := exists_sentence_of_tokenize h
  have htrailing : (s.trailing ++ blanks).all Byte.isBlank := by
    rw [List.all_append, s.trailing_blank, hblanks]
    rfl
  have htext : (s.withTrailing _ htrailing).text = s.text ++ blanks := by
    simp [Sentence.withTrailing, Sentence.text]
  rw [← htext]
  exact Sentence.tokenize_text _

theorem tokenize_blanks_append {line blanks : Bytes} {ts : List Token} (h : tokenize line = .ok ts)
    (hblanks : blanks.all Byte.isBlank) : tokenize (blanks ++ line) = .ok ts := by
  obtain ⟨s, rfl, rfl⟩ := exists_sentence_of_tokenize h
  have hleading : (blanks ++ s.leading).all Byte.isBlank := by
    rw [List.all_append, s.leading_blank, hblanks]
    rfl
  have htext : { s with leading := _, leading_blank := hleading : Sentence }.text
      = blanks ++ s.text := by
    simp [Sentence.text]
  rw [← htext]
  exact Sentence.tokenize_text _

namespace CommandLine

open Bytes (ofString)

/-- No line that is an expression looks like a flag: behind a hyphen in front it has a
digit. -/
theorem looksLikeFlag_of_tokenize {line : Bytes} {ts : List Token} (h : tokenize line = .ok ts) :
    looksLikeFlag line = false := by
  rcases line with _ | ⟨first, _ | ⟨second, rest⟩⟩
  · rfl
  · rfl
  · by_contra hflag
    simp only [looksLikeFlag, Bool.not_eq_false, Bool.and_eq_true, beq_iff_eq,
      Bool.not_eq_true'] at hflag
    obtain ⟨rfl, hsecond⟩ := hflag
    have hsign : AfterSign [Byte.hyphen] := ⟨[], .minus, .inl rfl, rfl⟩
    have hrest : Literal.NoDigitAhead (second :: rest) := by
      intro b hb
      obtain rfl := Option.some.inj hb
      exact hsecond
    exact not_accepted_of_error (hsign.tokenize_append hrest) ⟨ts, h⟩

/-! ### Spreading -/

/-- An argument that is an expression by itself, and what it is read as. -/
structure Operand where
  text : Bytes
  tokens : List Token
  tokenize_text : tokenize text = .ok tokens

/-- Operands with operators between them, each an argument. -/
def spread (first : Operand) (rest : List (Op × Operand)) : List Bytes :=
  first.text :: rest.flatMap fun part => [[part.1.symbol], part.2.text]

/-- The tokens of operands with operators between them. -/
def spreadTokens (first : Operand) (rest : List (Op × Operand)) : List Token :=
  first.tokens ++ rest.flatMap fun part => .operator part.1 :: part.2.tokens

theorem looksLikeFlag_of_mem_spread {first : Operand} {rest : List (Op × Operand)} {arg : Bytes}
    (h : arg ∈ spread first rest) : looksLikeFlag arg = false := by
  rw [spread, List.mem_cons, List.mem_flatMap] at h
  rcases h with rfl | ⟨part, -, harg⟩
  · exact looksLikeFlag_of_tokenize first.tokenize_text
  · rcases List.mem_pair.mp harg with rfl | rfl
    · rfl
    · exact looksLikeFlag_of_tokenize part.2.tokenize_text

/-- The joined operands and operators are read one after the other. -/
theorem tokenize_joinWith_spread (first : Operand) (rest : List (Op × Operand)) :
    tokenize (Bytes.joinWith Byte.space (spread first rest)) = .ok (spreadTokens first rest) := by
  have hspace : [Byte.space].all Byte.isBlank := rfl
  induction rest generalizing first with
  | nil =>
    rw [spreadTokens, List.flatMap_nil, List.append_nil]
    exact first.tokenize_text
  | cons part rest ih =>
    obtain ⟨op, second⟩ := part
    have hfirst := tokenize_append_blanks first.tokenize_text hspace
    have hrest := tokenize_blanks_append (ih second) hspace
    have hline : Bytes.joinWith Byte.space (spread first ((op, second) :: rest))
        = first.text ++ [Byte.space] ++
          op.symbol :: ([Byte.space] ++ Bytes.joinWith Byte.space (spread second rest)) := by
      simp [spread, Bytes.joinWith]
    rw [hline, tokenize_append_operator_eq hfirst, hrest]
    rfl

/-- Operands and operators, **an argument each, are never taken for flags**: the
arguments set no flag and need no `--`, the line they make up is read as the operands
and operators in turn, and its value is the value of these tokens. -/
theorem spread_sets_no_flag (first : Operand) (rest : List (Op × Operand)) :
    endOfFlags ∉ spread first rest ∧
    ∃ line, Options.parse (spread first rest) = .ok
        { help := false, verbose := false, engine := .reduction, expression := some line } ∧
      tokenize line = .ok (spreadTokens first rest) ∧
      ∃ x, reduce (spreadTokens first rest) = .ok x ∧ evaluate line .reduction = .ok x ∧
        argumentsValue (spread first rest) = .ok (some x) := by
  have hwords : ∀ arg ∈ spread first rest, looksLikeFlag arg = false :=
    fun arg => looksLikeFlag_of_mem_spread
  have hline := tokenize_joinWith_spread first rest
  have hparse : Options.parse (spread first rest) = .ok { Options.default with
      expression := some (Bytes.joinWith Byte.space (spread first rest)) } := by
    have hjoin : (spread first rest).foldl Options.addWord Options.default = _ :=
      Options.foldl_addWord _ rfl (List.cons_ne_nil _ _)
    rw [Options.parse, Options.parseFrom_words _ hwords, hjoin]
  obtain ⟨x, hx⟩ := (wellFormed_of_tokenize hline).exists_value
  have hvalue := evaluate_of_tokenize hline (hx .reduction)
  refine ⟨?_, _, hparse, hline, x, hx .reduction, hvalue, ?_⟩
  · intro hend
    have hnot := hwords _ hend
    revert hnot
    decide
  · rw [argumentsValue, hparse]
    exact congrArg (some <$> ·) hvalue

/-- `-3 - -2 ^ 2` in three arguments, all of which start with a hyphen. -/
theorem spread_sets_no_flag_hyphens :
    tokenize (ofString "-3") = .ok [.number (.plain (-3))] ∧
    tokenize (ofString "-2 ^ 2")
      = .ok [.number (.plain (-2)), .operator .pow, .number (.plain 2)] ∧
    endOfFlags ∉ [ofString "-3", [Op.sub.symbol], ofString "-2 ^ 2"] ∧
    ∃ line, Options.parse [ofString "-3", [Op.sub.symbol], ofString "-2 ^ 2"] = .ok
        { help := false, verbose := false, engine := .reduction, expression := some line } ∧
      tokenize line = .ok [.number (.plain (-3)), .operator .sub, .number (.plain (-2)),
        .operator .pow, .number (.plain 2)] ∧
      ∃ x, reduce [.number (.plain (-3)), .operator .sub, .number (.plain (-2)),
          .operator .pow, .number (.plain 2)] = .ok x ∧ evaluate line .reduction = .ok x ∧
        argumentsValue [ofString "-3", [Op.sub.symbol], ofString "-2 ^ 2"] = .ok (some x) := by
  have hfirst : tokenize (ofString "-3") = .ok [.number (.plain (-3))] := by decide +kernel
  have hsecond : tokenize (ofString "-2 ^ 2")
      = .ok [.number (.plain (-2)), .operator .pow, .number (.plain 2)] := by decide +kernel
  exact ⟨hfirst, hsecond, spread_sets_no_flag ⟨_, _, hfirst⟩ [(.sub, ⟨_, _, hsecond⟩)]⟩

end CommandLine

end LineCalc
