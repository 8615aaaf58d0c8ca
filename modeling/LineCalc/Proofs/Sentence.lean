import LineCalc.Proofs.Token.Reading
/-!
# LineCalc.Proofs.Sentence

The lines that are expressions are the texts of **sentences**, and a line is the
text of one sentence at most.

* `Sentence.tokenize_text` — a sentence is read as its tokens;
* `exists_sentence_of_tokenize` — what is read as tokens is a sentence;
* `Sentence.text_injective` — the parts of a sentence can be told apart.
-/

namespace LineCalc

/-! ### What stands behind a literal -/

namespace Literal.Stops

variable {fraction : Option Bytes}

theorem nil : Stops fraction [] := nofun

theorem symbol (op : Op) (rest : Bytes) : Stops fraction (op.symbol :: rest) := by
  intro b hb
  obtain rfl := Option.some.inj hb
  exact ⟨op.isDigit_symbol, fun _ => op.symbol_ne_point⟩

theorem blanks_append {blanks rest : Bytes} (hblanks : blanks.all Byte.isBlank)
    (h : Stops fraction rest) : Stops fraction (blanks ++ rest) := by
  cases blanks with
  | nil => exact h
  | cons b blanks =>
    rw [List.all_cons, Bool.and_eq_true] at hblanks
    intro c hc
    obtain rfl := Option.some.inj hc
    refine ⟨Byte.isDigit_of_isBlank hblanks.1, ?_⟩
    intro _ hpoint
    rw [hpoint] at hblanks
    exact absurd hblanks.1 (by decide)

end Literal.Stops

/-- The bytes behind the first literal of a sentence. -/
def Clause.textBehind (clauses : List Clause) (trailing : Bytes) : Bytes :=
  clauses.flatMap Clause.text ++ trailing

namespace Clause

theorem textBehind_cons (c : Clause) (clauses : List Clause) (trailing : Bytes) :
    textBehind (c :: clauses) trailing = c.beforeOp ++ c.op.symbol ::
      (c.beforeLiteral ++ (c.literal.text ++ textBehind clauses trailing)) := by
  simp [textBehind, text]

theorem stops_textBehind (fraction : Option Bytes) (clauses : List Clause) {trailing : Bytes}
    (htrailing : trailing.all Byte.isBlank) :
    Literal.Stops fraction (textBehind clauses trailing) := by
  cases clauses with
  | nil =>
    have hstops : Literal.Stops fraction (trailing ++ []) := .blanks_append htrailing .nil
    rwa [List.append_nil] at hstops
  | cons c clauses =>
    rw [textBehind_cons]
    exact .blanks_append c.beforeOp_blank (.symbol c.op _)

end Clause

theorem Sentence.text_eq (s : Sentence) :
    s.text = s.leading ++ (s.first.text ++ Clause.textBehind s.clauses s.trailing) := by
  simp [text, Clause.textBehind]

/-! ### A sentence is read as its tokens -/

theorem Clause.exists_run (clauses : List Clause) {trailing : Bytes}
    (htrailing : trailing.all Byte.isBlank) (p : Nat) :
    ∃ p', Lexer.Run ⟨textBehind clauses trailing, p, .operator⟩ (clauses.flatMap Clause.tokens)
      ⟨trailing, p', .operator⟩ := by
  induction clauses generalizing p with
  | nil => exact ⟨p, .nil _⟩
  | cons c clauses ih =>
    have hop := Lexer.Step.operator c.beforeOp_blank c.op
      (c.beforeLiteral ++ (c.literal.text ++ textBehind clauses trailing)) p
    have hnumber := Lexer.Step.number c.beforeLiteral_blank c.literal (textBehind clauses trailing)
      (stops_textBehind _ clauses htrailing) (p + c.beforeOp.length + 1)
    obtain ⟨p', hrun⟩ := ih (p + c.beforeOp.length + 1 + c.beforeLiteral.length
      + c.literal.text.length)
    rw [textBehind_cons]
    exact ⟨p', .cons hop rfl (.cons hnumber rfl hrun)⟩

theorem Sentence.exists_run (s : Sentence) :
    ∃ p, Lexer.Run (Lexer.start s.text) s.tokens ⟨s.trailing, p, .operator⟩ := by
  have hnumber := Lexer.Step.number s.leading_blank s.first
    (Clause.textBehind s.clauses s.trailing)
    (Clause.stops_textBehind _ s.clauses s.trailing_blank) 0
  obtain ⟨p, hrun⟩ := Clause.exists_run s.clauses s.trailing_blank
    (0 + s.leading.length + s.first.text.length)
  rw [Sentence.text_eq]
  exact ⟨p, .cons hnumber rfl hrun⟩

/-- What becomes of the tokens of a line depends on the last of them. -/
theorem tokenize_of_tokens {line : Bytes} {ts : List Token}
    (h : (Lexer.start line).tokens = .ok ts) :
    tokenize line = match ts.getLast? with
      | none => .error .emptyInput
      | some (.operator op) => .error (.danglingOperator op line.length)
      | some _ => .ok ts := by
  rw [tokenize, h]
  rfl

theorem tokenize_of_error {line : Bytes} {e : ParseError}
    (h : (Lexer.start line).tokens = .error e) : tokenize line = .error e := by
  rw [tokenize, h]
  rfl

theorem Sentence.tokenize_text (s : Sentence) : tokenize s.text = .ok s.tokens := by
  obtain ⟨p, hrun⟩ := s.exists_run
  obtain ⟨x, hlast⟩ := s.exists_getLast?_tokens
  rw [tokenize_of_tokens (hrun.tokens_of_end (.atEnd s.trailing_blank p .operator)), hlast]

/-! ### What is read as tokens is a sentence -/

theorem exists_sentence_of_tokenize {line : Bytes} {ts : List Token} (h : tokenize line = .ok ts) :
    ∃ s : Sentence, s.text = line ∧ s.tokens = ts := by
  obtain ⟨read, l, l', hrun, hstop⟩ := Lexer.exists_run (Lexer.start line)
  rcases hstop with hend | ⟨e, herror⟩
  · have hread := Lexer.Read.start.run hrun
    rw [List.nil_append] at hread
    rw [tokenize_of_tokens (hrun.tokens_of_end hend)] at h
    cases hread with
    | start => cases h
    | sentence s htrailing rest hline =>
      cases hend with
      | atEnd hblanks =>
        obtain ⟨x, hlast⟩ := s.exists_getLast?_tokens
        rw [hlast] at h
        refine ⟨s.withTrailing rest hblanks, ?_, Except.ok.inj h⟩
        rw [s.text_withTrailing hblanks htrailing, hline]
    | operator s op rest hline =>
      -- the line ends where the operator lacks its second operand
      rw [List.getLast?_concat] at h
      cases h
  · rw [tokenize_of_error (hrun.tokens_of_error herror)] at h
    cases h

/-! ### The parts of a sentence can be told apart -/

theorem NoBlankAhead.eq_of_append_eq {blanks blanks' s s' : Bytes} (hs : NoBlankAhead s)
    (hs' : NoBlankAhead s') (hblanks : blanks.all Byte.isBlank)
    (hblanks' : blanks'.all Byte.isBlank) (h : blanks ++ s = blanks' ++ s') :
    blanks = blanks' ∧ s = s' := by
  have htake := Bytes.takeWhile_append_of_all hblanks hs
  have hdrop := Bytes.dropWhile_append_of_all hblanks hs
  rw [h, Bytes.takeWhile_append_of_all hblanks' hs'] at htake
  rw [h, Bytes.dropWhile_append_of_all hblanks' hs'] at hdrop
  exact ⟨htake.symm, hdrop.symm⟩

theorem Literal.Stops.eq_of_append_eq {l l' : Literal} {rest rest' : Bytes}
    (hrest : Stops l.fraction rest) (hrest' : Stops l'.fraction rest')
    (h : l.text ++ rest = l'.text ++ rest') : l = l' ∧ rest = rest' := by
  have hscan := scan?_text_append hrest
  rw [h, scan?_text_append hrest'] at hscan
  cases hscan
  exact ⟨rfl, rfl⟩

theorem Clause.eq_of_textBehind_eq {clauses clauses' : List Clause} {trailing trailing' : Bytes}
    (htrailing : trailing.all Byte.isBlank) (htrailing' : trailing'.all Byte.isBlank)
    (h : textBehind clauses trailing = textBehind clauses' trailing') :
    clauses = clauses' ∧ trailing = trailing' := by
  -- an operator is no blank, so it cannot stand among trailing blanks
  have ends : ∀ (c : Clause) (cs : List Clause) (t t' : Bytes), t'.all Byte.isBlank →
      textBehind (c :: cs) t ≠ t' := by
    intro c cs t t' ht' heq
    subst heq
    rw [textBehind_cons, List.all_append, List.all_cons, c.op.isBlank_symbol] at ht'
    simp at ht'
  induction clauses generalizing clauses' with
  | nil =>
    cases clauses' with
    | nil => exact ⟨rfl, h⟩
    | cons c' clauses' => exact absurd h.symm (ends c' clauses' trailing' trailing htrailing)
  | cons c clauses ih =>
    cases clauses' with
    | nil => exact absurd h (ends c clauses trailing trailing' htrailing')
    | cons c' clauses' =>
      obtain ⟨beforeOp, op, beforeLiteral, literal, hbeforeOp, hbeforeLiteral⟩ := c
      obtain ⟨beforeOp', op', beforeLiteral', literal', hbeforeOp', hbeforeLiteral'⟩ := c'
      rw [textBehind_cons, textBehind_cons] at h
      obtain ⟨rfl, hfromOp⟩ := NoBlankAhead.eq_of_append_eq (.cons op.isBlank_symbol _)
        (.cons op'.isBlank_symbol _) hbeforeOp hbeforeOp' h
      obtain ⟨hsymbol, hbehindOp⟩ := List.cons.inj hfromOp
      obtain rfl := Op.symbol_injective hsymbol
      obtain ⟨rfl, hfromLiteral⟩ := NoBlankAhead.eq_of_append_eq
        (literal.noBlankAhead_text_append _) (literal'.noBlankAhead_text_append _)
        hbeforeLiteral hbeforeLiteral' hbehindOp
      obtain ⟨rfl, hbehind⟩ := Literal.Stops.eq_of_append_eq
        (stops_textBehind _ clauses htrailing) (stops_textBehind _ clauses' htrailing') hfromLiteral
      obtain ⟨rfl, rfl⟩ := ih hbehind
      exact ⟨rfl, rfl⟩

theorem Sentence.text_injective {s s' : Sentence} (h : s.text = s'.text) : s = s' := by
  obtain ⟨leading, first, clauses, trailing, hleading, htrailing⟩ := s
  obtain ⟨leading', first', clauses', trailing', hleading', htrailing'⟩ := s'
  rw [text_eq, text_eq] at h
  obtain ⟨rfl, hfromLiteral⟩ := NoBlankAhead.eq_of_append_eq (first.noBlankAhead_text_append _)
    (first'.noBlankAhead_text_append _) hleading hleading' h
  obtain ⟨rfl, hbehind⟩ := Literal.Stops.eq_of_append_eq
    (Clause.stops_textBehind _ clauses htrailing) (Clause.stops_textBehind _ clauses' htrailing')
    hfromLiteral
  obtain ⟨rfl, rfl⟩ := Clause.eq_of_textBehind_eq htrailing htrailing' hbehind
  rfl

/-- A line is accepted when it is the **text of a sentence**, and then it is the
text of one sentence, whose tokens it is read as. All other lines are errors. -/
theorem tokenize_accepts_sentences :
    (∀ line ts, tokenize line = .ok ts ↔ ∃ s : Sentence, s.text = line ∧ s.tokens = ts) ∧
    (∀ s s' : Sentence, s.text = s'.text → s = s') ∧
    ∀ line, (¬ ∃ s : Sentence, s.text = line) → ∃ e : ParseError, tokenize line = .error e := by
  refine ⟨fun line ts => ⟨exists_sentence_of_tokenize, ?_⟩, fun s s' => Sentence.text_injective, ?_⟩
  · intro h
    obtain ⟨s, rfl, rfl⟩ := h
    exact s.tokenize_text
  · intro line hnone
    cases h : tokenize line with
    | error e => exact ⟨e, rfl⟩
    | ok ts =>
      obtain ⟨s, hline, -⟩ := exists_sentence_of_tokenize h
      exact absurd ⟨s, hline⟩ hnone

end LineCalc
