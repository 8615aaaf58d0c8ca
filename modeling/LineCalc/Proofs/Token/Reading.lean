import LineCalc.Proofs.Token.Step
import LineCalc.Sentence
/-!
# LineCalc.Proofs.Token.Reading

**Reading a line** token by token, from the start to the first answer that is not
a token.

`Lexer.Run` chains the calls that give tokens. Every run can be taken to the end
of the line or to a mistake (`Lexer.exists_run`), and its end decides what reading
the line gives (`Lexer.Run.tokens_of_end`, `Lexer.Run.tokens_of_error`).

`Lexer.Read` is the invariant of the runs from the start of a line: what lies
behind is nothing, or a sentence, or a sentence and an operator, and the tokens
that were given are the tokens of that text.
-/

namespace LineCalc

namespace Sentence

/-- The sentence that is one literal. -/
def ofLiteral (leading : Bytes) (hleading : leading.all Byte.isBlank) (literal : Literal) :
    Sentence :=
  ⟨leading, literal, [], [], hleading, rfl⟩

/-- A sentence with other blanks behind it. -/
def withTrailing (s : Sentence) (blanks : Bytes) (hblanks : blanks.all Byte.isBlank) : Sentence :=
  { s with trailing := blanks, trailing_blank := hblanks }

/-- A sentence, and an operator and a literal behind it. -/
def concat (s : Sentence) (op : Op) (blanks : Bytes) (hblanks : blanks.all Byte.isBlank)
    (literal : Literal) : Sentence :=
  { s with
    clauses := s.clauses ++ [⟨s.trailing, op, blanks, literal, s.trailing_blank, hblanks⟩]
    trailing := []
    trailing_blank := rfl }

variable (s : Sentence) (op : Op) {blanks : Bytes} (hblanks : blanks.all Byte.isBlank)
  (literal : Literal)

@[simp] theorem text_ofLiteral :
    (ofLiteral blanks hblanks literal).text = blanks ++ literal.text := by
  simp [ofLiteral, text]

@[simp] theorem tokens_withTrailing : (s.withTrailing blanks hblanks).tokens = s.tokens := rfl

theorem text_withTrailing (h : s.trailing = []) :
    (s.withTrailing blanks hblanks).text = s.text ++ blanks := by
  simp [withTrailing, text, h]

@[simp] theorem text_concat :
    (s.concat op blanks hblanks literal).text
      = s.text ++ op.symbol :: (blanks ++ literal.text) := by
  simp [concat, text, Clause.text]

@[simp] theorem tokens_concat :
    (s.concat op blanks hblanks literal).tokens
      = s.tokens ++ [.operator op, .number literal.number] := by
  simp [concat, tokens, Clause.tokens]

theorem length_text_concat :
    (s.concat op blanks hblanks literal).text.length
      = s.text.length + 1 + blanks.length + literal.text.length := by
  simp only [text_concat, List.length_append, List.length_cons]
  omega

/-- A sentence ends with a number. -/
theorem exists_getLast?_tokens : ∃ x, s.tokens.getLast? = some (.number x) := by
  obtain ⟨leading, first, clauses, trailing, -, -⟩ := s
  rcases List.eq_nil_or_concat clauses with rfl | ⟨clauses, clause, rfl⟩
  · exact ⟨first.number, rfl⟩
  · refine ⟨clause.literal.number, ?_⟩
    rw [tokens, List.concat_eq_append, List.flatMap_append, ← List.cons_append,
      List.getLast?_append]
    rfl

end Sentence

namespace Lexer

/-! ### Runs -/

/-- `Run l ts l'`: the calls from `l` to `l'` give the tokens `ts`. -/
inductive Run : Lexer → List Token → Lexer → Prop
  | nil (l : Lexer) : Run l [] l
  | cons {l l' l'' : Lexer} {t : Token} {ts : List Token} (hstep : Step l (.ok t) l')
    (ht : t.isEnd = false) (hrun : Run l' ts l'') : Run l (t :: ts) l''

theorem Run.tokens_eq {l l' : Lexer} {ts : List Token} (h : Run l ts l') :
    l.tokens = (ts ++ ·) <$> l'.tokens := by
  induction h with
  | nil l => cases l.tokens <;> rfl
  | @cons l l' l'' t ts hstep ht _ ih =>
    rw [tokens_of_next hstep.next_eq ht, ih]
    cases l''.tokens <;> rfl

/-- A run that comes to the end of the line has given all its tokens. -/
theorem Run.tokens_of_end {l l' l'' : Lexer} {ts : List Token} (h : Run l ts l')
    (hend : Step l' (.ok .endOfInput) l'') : l.tokens = .ok ts := by
  rw [h.tokens_eq, Lexer.tokens_of_end hend.next_eq rfl]
  exact congrArg Except.ok (List.append_nil ts)

/-- A run that comes to a mistake fails with it. -/
theorem Run.tokens_of_error {l l' l'' : Lexer} {ts : List Token} {e : ParseError}
    (h : Run l ts l') (herror : Step l' (.error e) l'') : l.tokens = .error e := by
  rw [h.tokens_eq, Lexer.tokens_of_error herror.next_eq]
  rfl

/-- Every run can be taken to the end of the line or to a mistake. -/
theorem exists_run (l : Lexer) : ∃ ts l' l'', Run l ts l' ∧
    (Step l' (.ok .endOfInput) l'' ∨ ∃ e, Step l' (.error e) l'') := by
  induction hn : l.rest.length using Nat.strongRecOn generalizing l with
  | ind n ih =>
    obtain ⟨answer, l', hnext⟩ : ∃ answer l', l.next = (answer, l') := ⟨_, _, rfl⟩
    have hstep : Step l answer l' := next_eq_iff.mp hnext
    cases answer with
    | error e => exact ⟨[], l, l', .nil l, .inr ⟨e, hstep⟩⟩
    | ok t =>
      cases ht : t.isEnd with
      | true =>
        cases t with
        | endOfInput => exact ⟨[], l, l', .nil l, .inl hstep⟩
        | number x => cases ht
        | operator op => cases ht
      | false =>
        have hlt := length_rest_lt_of_next hnext ht
        obtain ⟨ts, m, m', hrun, hstop⟩ := ih l'.rest.length (hn ▸ hlt) l' rfl
        exact ⟨t :: ts, m, m', .cons hstep ht hrun, hstop⟩

/-! ### What lies behind -/

/-- `Read line ts l`: the lexer has come to `l` on `line`, and `ts` are the tokens
of what lies behind. -/
inductive Read (line : Bytes) : List Token → Lexer → Prop
  | start : Read line [] (Lexer.start line)
  /-- A sentence lies behind, and nothing behind its last literal. -/
  | sentence (s : Sentence) (htrailing : s.trailing = []) (rest : Bytes)
    (hline : s.text ++ rest = line) : Read line s.tokens ⟨rest, s.text.length, .operator⟩
  /-- A sentence and an operator lie behind. -/
  | operator (s : Sentence) (op : Op) (rest : Bytes) (hline : s.text ++ op.symbol :: rest = line) :
    Read line (s.tokens ++ [.operator op]) ⟨rest, s.text.length + 1, .operand⟩

/-- A call that gives a token leads on from where the invariant holds. -/
theorem Read.step {line : Bytes} {ts : List Token} {l l' : Lexer} {t : Token}
    (h : Read line ts l) (hstep : Step l (.ok t) l') (ht : t.isEnd = false) :
    Read line (ts ++ [t]) l' := by
  cases h with
  | start =>
    cases hstep with
    | atEnd => cases ht
    | number hblanks literal rest hstops p =>
      have hread := Read.sentence (.ofLiteral _ hblanks literal) rfl rest (by
        rw [Sentence.text_ofLiteral, List.append_assoc])
      rw [Sentence.text_ofLiteral, List.length_append] at hread
      rwa [Nat.zero_add]
  | sentence s htrailing rest hline =>
    cases hstep with
    | atEnd => cases ht
    | operator hblanks op rest p =>
      have htext := s.text_withTrailing hblanks htrailing
      have hread := Read.operator (s.withTrailing _ hblanks) op rest (by
        rw [htext, List.append_assoc, hline])
      rwa [htext, List.length_append, Sentence.tokens_withTrailing] at hread
  | operator s op rest hline =>
    cases hstep with
    | atEnd => cases ht
    | number hblanks literal rest hstops p =>
      have hread := Read.sentence (s.concat op _ hblanks literal) rfl rest (by
        rw [Sentence.text_concat, List.append_assoc, List.cons_append, List.append_assoc, hline])
      rw [Sentence.length_text_concat, Sentence.tokens_concat] at hread
      rwa [List.append_assoc]

theorem Read.run {line : Bytes} {ts more : List Token} {l l' : Lexer} (h : Read line ts l)
    (hrun : Run l more l') : Read line (ts ++ more) l' := by
  induction hrun generalizing ts with
  | nil l => rwa [List.append_nil]
  | @cons l l' l'' t more hstep ht _ ih =>
    rw [← List.singleton_append, ← List.append_assoc]
    exact ih (h.step hstep ht)

end Lexer

end LineCalc
