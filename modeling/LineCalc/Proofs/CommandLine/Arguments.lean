import LineCalc.Proofs.Evaluate
/-!
# LineCalc.Proofs.CommandLine.Arguments

Reading **one argument after the other**.

* `Argument` lists what an argument can be as long as `--` has not come, and
  `Options.parseFrom` has one equation for each of these cases;
* `Options.foldl_addWord` — words make up the expression, and change nothing else;
* `Options.parseFrom_set` — a flag that is set has no influence on what else the
  arguments ask for, so it does not matter where among them it stands;
* `flag_keeps_value` — nor does it matter for the value that it is there at all.
-/

namespace LineCalc

/-- No engine makes a difference to the value of a line. -/
theorem evaluate_eq_of_engine (line : Bytes) (engine engine' : Engine) :
    evaluate line engine = evaluate line engine' := by
  rcases evaluate_cases line with ⟨x, hx⟩ | ⟨e, -, he⟩
  · rw [hx, hx]
  · rw [he, he]

namespace CommandLine

open Bytes (ofString)

/-! ### What an argument can be -/

/-- What an argument is, if no `--` stands in front of it. -/
inductive Argument : Bytes → Prop
  /-- The flags end here. -/
  | endOfFlags : Argument endOfFlags
  /-- A flag. -/
  | flag {arg : Bytes} (flag : Flag) (hflag : Flag.ofArgument? arg = some flag) : Argument arg
  /-- Something that looks like a flag. -/
  | unknown {arg : Bytes} (hend : arg ≠ CommandLine.endOfFlags)
    (hflag : Flag.ofArgument? arg = none) (hform : looksLikeFlag arg = true) : Argument arg
  /-- A word of the expression. -/
  | word {arg : Bytes} (hform : looksLikeFlag arg = false) : Argument arg

/-- There is nothing else. -/
theorem argument_cases (arg : Bytes) : Argument arg := by
  by_cases hend : arg = endOfFlags
  · exact hend ▸ .endOfFlags
  · cases hflag : Flag.ofArgument? arg with
    | some flag => exact .flag flag hflag
    | none =>
      cases hform : looksLikeFlag arg with
      | true => exact .unknown hend hflag hform
      | false => exact .word hform

theorem Flag.ofArgument?_of_mem {arg : Bytes} {flag : Flag} (h : (arg, flag) ∈ spellings) :
    ofArgument? arg = some flag := by
  have hall : ∀ spelling ∈ spellings, ofArgument? spelling.1 = some spelling.2 := by decide
  exact hall _ h

/-- All flags look like flags. -/
theorem looksLikeFlag_of_ofArgument? {arg : Bytes} {flag : Flag}
    (h : Flag.ofArgument? arg = some flag) : looksLikeFlag arg = true := by
  have hall : ∀ spelling ∈ Flag.spellings, looksLikeFlag spelling.1 = true := by decide
  obtain ⟨front, behind, hspellings, -⟩ := List.lookup_eq_some_iff.mp h
  exact hall (arg, flag) (by simp [hspellings])

namespace Options

/-! ### One argument -/

variable (opts : Options) {arg : Bytes} (rest : List Bytes)

theorem parseFrom_endOfFlags :
    parseFrom opts (endOfFlags :: rest) = .ok (rest.foldl addWord opts) := by
  rw [parseFrom, if_pos rfl]

theorem parseFrom_flag {flag : Flag} (h : Flag.ofArgument? arg = some flag) :
    parseFrom opts (arg :: rest) = parseFrom (opts.set flag) rest := by
  have hend : arg ≠ endOfFlags := by
    rintro rfl
    have hnone : Flag.ofArgument? endOfFlags = none := by decide
    rw [hnone] at h
    cases h
  rw [parseFrom, if_neg hend, h]

theorem parseFrom_unknown (hend : arg ≠ endOfFlags) (hflag : Flag.ofArgument? arg = none)
    (hform : looksLikeFlag arg = true) :
    parseFrom opts (arg :: rest) = .error (.unknownOption arg) := by
  rw [parseFrom, if_neg hend, hflag]
  exact if_pos hform

theorem parseFrom_word (hform : looksLikeFlag arg = false) :
    parseFrom opts (arg :: rest) = parseFrom (opts.addWord arg) rest := by
  have hnot : ¬ looksLikeFlag arg = true := by simp [hform]
  have hend : arg ≠ endOfFlags := by
    rintro rfl
    exact hnot (by decide)
  have hflag : Flag.ofArgument? arg = none := by
    cases hflag : Flag.ofArgument? arg with
    | none => rfl
    | some flag => exact absurd (looksLikeFlag_of_ofArgument? hflag) hnot
  rw [parseFrom, if_neg hend, hflag]
  exact if_neg hnot

/-! ### Words -/

theorem parseFrom_words {words : List Bytes} (h : ∀ word ∈ words, looksLikeFlag word = false) :
    parseFrom opts words = .ok (words.foldl addWord opts) := by
  induction words generalizing opts with
  | nil => rfl
  | cons word words ih =>
    obtain ⟨hword, hwords⟩ := List.forall_mem_cons.mp h
    rw [parseFrom_word opts words hword, ih _ hwords, List.foldl_cons]

/-- Words are joined to the expression, and nothing else changes. -/
theorem foldl_addWord {words : List Bytes} (hopts : opts.expression = none) (hne : words ≠ []) :
    words.foldl addWord opts
      = { opts with expression := some (Bytes.joinWith Byte.space words) } := by
  induction words using List.reverseRecOn with
  | nil => exact absurd rfl hne
  | append_singleton words word ih =>
    by_cases hwords : words = []
    · subst hwords
      simp [addWord, hopts]
    · rw [List.foldl_append, ih hwords, List.foldl_cons, List.foldl_nil,
        Bytes.joinWith_concat _ _ _ hwords]
      rfl

/-! ### Flags -/

variable (flag : Flag)

@[simp] theorem expression_set : (opts.set flag).expression = opts.expression := by
  cases flag <;> rfl

theorem set_comm (flag' : Flag) : (opts.set flag).set flag' = (opts.set flag').set flag := by
  cases flag <;> cases flag' <;> rfl

theorem addWord_set (word : Bytes) :
    (opts.set flag).addWord word = (opts.addWord word).set flag := by
  cases flag <;> rfl

theorem foldl_addWord_set (words : List Bytes) :
    words.foldl addWord (opts.set flag) = (words.foldl addWord opts).set flag := by
  induction words generalizing opts with
  | nil => rfl
  | cons word words ih => rw [List.foldl_cons, List.foldl_cons, addWord_set, ih]

/-- A flag may be set first or last. -/
theorem parseFrom_set (args : List Bytes) :
    parseFrom (opts.set flag) args = (fun opts => opts.set flag) <$> parseFrom opts args := by
  induction args generalizing opts with
  | nil => rfl
  | cons arg rest ih =>
    cases argument_cases arg with
    | endOfFlags =>
      rw [parseFrom_endOfFlags, parseFrom_endOfFlags, foldl_addWord_set]
      rfl
    | flag flag' hflag => rw [parseFrom_flag _ _ hflag, parseFrom_flag _ _ hflag, set_comm, ih]
    | unknown hend hflag hform =>
      rw [parseFrom_unknown _ _ hend hflag hform, parseFrom_unknown _ _ hend hflag hform]
      rfl
    | word hform => rw [parseFrom_word _ _ hform, parseFrom_word _ _ hform, addWord_set, ih]

variable {flag}

/-- A flag in front of the first `--` is set, whatever stands around it. -/
theorem parseFrom_append_flag (hflag : Flag.ofArgument? arg = some flag) {before : List Bytes}
    (hbefore : endOfFlags ∉ before) (after : List Bytes) :
    parseFrom opts (before ++ arg :: after)
      = (fun opts => opts.set flag) <$> parseFrom opts (before ++ after) := by
  induction before generalizing opts with
  | nil =>
    rw [List.nil_append, List.nil_append, parseFrom_flag _ _ hflag, parseFrom_set]
  | cons first before ih =>
    rw [List.mem_cons, not_or] at hbefore
    rw [List.cons_append, List.cons_append]
    cases argument_cases first with
    | endOfFlags => exact absurd rfl hbefore.1
    | flag flag' hflag' => rw [parseFrom_flag _ _ hflag', parseFrom_flag _ _ hflag', ih _ hbefore.2]
    | unknown hend hflag' hform =>
      rw [parseFrom_unknown _ _ hend hflag' hform, parseFrom_unknown _ _ hend hflag' hform]
      rfl
    | word hform => rw [parseFrom_word _ _ hform, parseFrom_word _ _ hform, ih _ hbefore.2]

end Options

/-! ### The value -/

/-- The value is the same if all that differs is a flag. -/
theorem argumentsValue_eq_of_set {args args' : List Bytes} {flag : Flag}
    (h : Options.parse args' = (fun opts => opts.set flag) <$> Options.parse args) :
    argumentsValue args' = argumentsValue args := by
  unfold argumentsValue
  rw [h]
  cases Options.parse args with
  | error e => rfl
  | ok opts =>
    dsimp only [Functor.map, Except.map]
    rw [Options.expression_set]
    cases opts.expression with
    | none => rfl
    | some line => exact congrArg (some <$> ·) (evaluate_eq_of_engine line _ _)

/-- **A flag has no influence on the value.** With or without it, wherever in front of
the first `--` it stands, the arguments hold the same expression, if any, and ask for
the same value, or they fail alike. -/
theorem flag_keeps_value {arg : Bytes} {flag : Flag} (hflag : (arg, flag) ∈ Flag.spellings)
    {before : List Bytes} (hbefore : endOfFlags ∉ before) (after : List Bytes) :
    argumentsValue (before ++ arg :: after) = argumentsValue (before ++ after) ∧
      Options.expression <$> Options.parse (before ++ arg :: after)
        = Options.expression <$> Options.parse (before ++ after) := by
  have hparse : Options.parse (before ++ arg :: after)
      = (fun opts => opts.set flag) <$> Options.parse (before ++ after) :=
    Options.parseFrom_append_flag _ (Flag.ofArgument?_of_mem hflag) hbefore after
  refine ⟨argumentsValue_eq_of_set hparse, ?_⟩
  rw [hparse]
  cases Options.parse (before ++ after) with
  | error e => rfl
  | ok opts => exact congrArg Except.ok (opts.expression_set flag)

/-- `--rpn` may stand between an operand and its operator. -/
theorem flag_keeps_value_between_words :
    (ofString "--rpn", Flag.rpn) ∈ Flag.spellings ∧ endOfFlags ∉ [ofString "2"] ∧
    argumentsValue
        ([ofString "2"] ++ ofString "--rpn" :: [ofString "^", endOfFlags, ofString "-3"])
      = argumentsValue ([ofString "2"] ++ [ofString "^", endOfFlags, ofString "-3"]) ∧
    Options.expression <$> Options.parse
        ([ofString "2"] ++ ofString "--rpn" :: [ofString "^", endOfFlags, ofString "-3"])
      = Options.expression <$> Options.parse
        ([ofString "2"] ++ [ofString "^", endOfFlags, ofString "-3"]) := by
  have hflag : (ofString "--rpn", Flag.rpn) ∈ Flag.spellings := by decide
  have hbefore : endOfFlags ∉ [ofString "2"] := by decide
  exact ⟨hflag, hbefore, flag_keeps_value hflag hbefore _⟩

end CommandLine

end LineCalc
