import LineCalc.CommandLine.Session
import LineCalc.Proofs.Engines
import LineCalc.Proofs.Sentence
/-!
# LineCalc.Proofs.Evaluate

**Evaluation** of a line: a number, or what is wrong with the line, and the same
for both engines.

What a line is read as is well formed, and a well-formed sequence has a value that
both engines find (`WellFormed.exists_value`). So the causes of failure that an
engine knows stay out of sight: they are never the outcome of a line
(`evaluate_cases`), nor the end of a run of the program (`code_invoke`).
-/

namespace LineCalc

/-! ### Sequences -/

theorem Clause.wellFormed_tokens (x : Number) (clauses : List Clause) :
    WellFormed (.number x :: clauses.flatMap tokens) := by
  induction clauses generalizing x with
  | nil => exact .single x
  | cons c clauses ih => exact .cons x c.op (ih c.literal.number)

/-- What a line is read as is well formed. -/
theorem wellFormed_of_tokenize {line : Bytes} {ts : List Token} (h : tokenize line = .ok ts) :
    WellFormed ts := by
  obtain ⟨s, -, rfl⟩ := exists_sentence_of_tokenize h
  exact Clause.wellFormed_tokens s.first.number s.clauses

/-- Every engine finds the value of a tight tree from its tokens. -/
theorem Expr.engine_value_tokens {e : Expr} (h : e.Tight) (engine : Engine) :
    engine.value e.tokens = .ok e.value := by
  cases engine with
  | reduction => exact reduce_tokens h
  | rpn =>
    rw [Engine.value, compile_tokens h]
    exact e.run_code

/-- A well-formed sequence has a value, whichever engine looks for it. -/
theorem WellFormed.exists_value {ts : List Token} (h : WellFormed ts) :
    ∃ x, ∀ engine : Engine, engine.value ts = .ok x := by
  obtain ⟨e, he, rfl⟩ := wellFormed_iff_exists_tight.mp h
  exact ⟨e.value, e.engine_value_tokens he⟩

/-! ### Lines -/

theorem evaluate_of_tokenize {line : Bytes} {ts : List Token} {engine : Engine} {x : Number}
    (h : tokenize line = .ok ts) (hx : engine.value ts = .ok x) :
    evaluate line engine = .ok x := by
  rw [evaluate, h]
  dsimp only
  rw [hx]

/-- A line has a value, or there is something wrong with it; no engine makes a
difference. -/
theorem evaluate_cases (line : Bytes) :
    (∃ x, ∀ engine, evaluate line engine = .ok x) ∨
      ∃ e, tokenize line = .error e ∧ ∀ engine, evaluate line engine = .error (.parse e) := by
  cases hline : tokenize line with
  | error e =>
    refine .inr ⟨e, rfl, fun engine => ?_⟩
    rw [evaluate, hline]
  | ok ts =>
    obtain ⟨x, hx⟩ := (wellFormed_of_tokenize hline).exists_value
    exact .inl ⟨x, fun engine => evaluate_of_tokenize hline (hx engine)⟩

/-- A line is read as no tokens at all exactly if the first answer of the lexer is
the end. -/
theorem Lexer.tokens_eq_nil_iff (l : Lexer) : l.tokens = .ok [] ↔ l.next.1 = .ok .endOfInput := by
  obtain ⟨answer, l', hnext⟩ : ∃ answer l', l.next = (answer, l') := ⟨_, _, rfl⟩
  rw [hnext]
  cases answer with
  | error e =>
    rw [tokens_of_error hnext]
    exact ⟨nofun, nofun⟩
  | ok t =>
    cases ht : t.isEnd with
    | true =>
      rw [tokens_of_end hnext ht]
      cases t with
      | endOfInput => exact ⟨fun _ => rfl, fun _ => rfl⟩
      | number x => cases ht
      | operator op => cases ht
    | false =>
      rw [tokens_of_next hnext ht]
      constructor
      · intro h
        cases hrest : l'.tokens with
        | error e =>
          rw [hrest] at h
          cases h
        | ok ts =>
          rw [hrest] at h
          cases h
      · intro h
        cases h
        cases ht

namespace CommandLine

/-! ### Runs of the program -/

/-- What arguments ask for never fails inside an engine. -/
theorem argumentsValue_ne_eval (args : List Bytes) (e : EvalError) :
    argumentsValue args ≠ .error (.eval e) := by
  unfold argumentsValue
  split
  next => nofun
  next opts _ =>
    split
    next => nofun
    next line _ =>
      rcases evaluate_cases line with ⟨x, hx⟩ | ⟨e', -, he'⟩
      · rw [hx opts.engine]
        nofun
      · rw [he' opts.engine]
        nofun

/-- A line is answered, and all is well. -/
theorem code_answer (opts : Options) (line : Bytes) : (answer opts line).code = 0 := by
  unfold answer
  cases hline : tokenize line with
  | error e => rfl
  | ok ts =>
    obtain ⟨x, hx⟩ := (wellFormed_of_tokenize hline).exists_value
    dsimp only
    rw [hx opts.engine]

theorem code_answerInput (opts : Options) (line : Bytes) : (answerInput opts line).code = 0 := by
  unfold answerInput
  split
  · rfl
  · exact code_answer opts line

theorem code_run (opts : Options) (input : Bytes) : (run opts input).code = 0 := by
  unfold run
  split
  · exact code_answer opts _
  · induction Bytes.lines input with
    | nil => rfl
    | cons line lines ih =>
      rw [List.foldr_cons, Transcript.followedBy, if_pos (code_answerInput opts line)]
      exact ih

/-- A run of the program ends well, unless its arguments make no sense. -/
theorem code_invoke (program : Bytes) (args : List Bytes) (input : Bytes) :
    (invoke program args input).code = if (Options.parse args).isOk then 0 else 2 := by
  unfold invoke
  cases Options.parse args with
  | error e => rfl
  | ok opts =>
    dsimp only
    split
    · rfl
    · exact code_run opts input

end CommandLine

/-- **No line reaches an internal failure**, and the engine cannot be told from the
outcome: a line is read as a well-formed sequence, or refused; all engines give it
the same value, or the same cause of refusal; and the program never ends with the
exit code of an internal failure. -/
theorem evaluate_never_fails_inside :
    (∀ line ts, tokenize line = .ok ts → WellFormed ts) ∧
    (∀ line, (Lexer.start line).tokens = .ok [] ↔
      (Lexer.start line).next.1 = .ok .endOfInput) ∧
    (∀ line, (∃ x, ∀ engine, evaluate line engine = .ok x) ∨
      ∃ e, ∀ engine, evaluate line engine = .error (.parse e)) ∧
    (∀ args e, CommandLine.argumentsValue args ≠ .error (.eval e)) ∧
    (∀ opts line, (CommandLine.answer opts line).code = 0) ∧
    ∀ program args input, (CommandLine.invoke program args input).code
      = if (CommandLine.Options.parse args).isOk then 0 else 2 := by
  refine ⟨fun line ts => wellFormed_of_tokenize, fun line => Lexer.tokens_eq_nil_iff _, ?_,
    CommandLine.argumentsValue_ne_eval, CommandLine.code_answer, CommandLine.code_invoke⟩
  intro line
  rcases evaluate_cases line with hvalue | ⟨e, -, he⟩
  · exact .inl hvalue
  · exact .inr ⟨e, he⟩

end LineCalc
