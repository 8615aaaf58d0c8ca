import LineCalc.Proofs.Sentence
import LineCalc.Proofs.Token.Consumption
/-!
# LineCalc.Proofs.Token.Continuation

What a run of the lexer **depends on**: the bytes that it moves past, and of the
bytes ahead only whether the last literal ends in front of them. So the rest of a
line can be exchanged for another (`Lexer.Run.exists_text`).

Hence all lines that start alike are read alike as far as they do. This is said of
two beginnings: behind an accepted text an operator is expected
(`exists_run_of_tokenize`), and behind blanks, or an accepted text with an operator
and blanks, an operand is (`OperandPlace.exists_run`).
-/

namespace LineCalc

/-- What ends every literal that `rest` ends, `rest'` ends too. -/
def Literal.EndsAlike (rest rest' : Bytes) : Prop :=
  ∀ fraction, Stops fraction rest → Stops fraction rest'

namespace Literal.EndsAlike

variable {rest rest' : Bytes}

theorem of_head?_eq (h : rest'.head? = rest.head?) : EndsAlike rest rest' := by
  intro fraction hstops b hb
  exact hstops b (h ▸ hb)

theorem append_left (h : EndsAlike rest rest') (text : Bytes) :
    EndsAlike (text ++ rest) (text ++ rest') := by
  cases text with
  | nil => exact h
  | cons b text => exact of_head?_eq rfl

end Literal.EndsAlike

namespace Lexer

open Literal (EndsAlike)

/-- A token is read from its own bytes. -/
theorem Step.exchange {l l' : Lexer} {t : Token} (h : Step l (.ok t) l') (ht : t.isEnd = false)
    {text rest : Bytes} (htext : l.rest = text ++ l'.rest) (hrest : EndsAlike l'.rest rest) :
    Step ⟨text ++ rest, l.position, l.expecting⟩ (.ok t) ⟨rest, l'.position, l'.expecting⟩ := by
  cases h with
  | atEnd => cases ht
  | number hblanks literal old hstops p =>
    rw [← List.append_assoc] at htext
    rw [← List.append_cancel_right htext, List.append_assoc]
    exact .number hblanks literal rest (hrest _ hstops) p
  | operator hblanks op old p =>
    rw [List.append_cons] at htext
    rw [← List.append_cancel_right htext, List.append_assoc]
    exact .operator hblanks op rest p

/-- A run is made of the bytes between its ends. -/
theorem Run.exists_text {l l' : Lexer} {ts : List Token} (h : Run l ts l') : ∃ text,
    l.rest = text ++ l'.rest ∧ l'.position = l.position + text.length ∧
      ∀ rest, EndsAlike l'.rest rest →
        Run ⟨text ++ rest, l.position, l.expecting⟩ ts ⟨rest, l'.position, l'.expecting⟩ := by
  induction h with
  | nil l => exact ⟨[], rfl, rfl, fun rest _ => .nil _⟩
  | @cons l l' l'' t ts hstep ht hrun ih =>
    obtain ⟨first, -, hfirst, hfirstPosition⟩ := hstep.exists_consumed
    obtain ⟨text, htext, htextPosition, hexchange⟩ := ih
    refine ⟨first ++ text, ?_, ?_, ?_⟩
    · rw [hfirst, htext, List.append_assoc]
    · rw [htextPosition, hfirstPosition, List.length_append, Nat.add_assoc]
    · intro rest hrest
      have hahead : EndsAlike l'.rest (text ++ rest) := htext ▸ hrest.append_left text
      rw [List.append_assoc]
      exact .cons (hstep.exchange ht hfirst hahead) ht (hexchange rest hrest)

theorem Run.concat {l l' l'' : Lexer} {ts : List Token} {t : Token} (h : Run l ts l')
    (hstep : Step l' (.ok t) l'') (ht : t.isEnd = false) : Run l (ts ++ [t]) l'' := by
  induction h with
  | nil l => exact .cons hstep ht (.nil _)
  | cons hfirst hfirstEnd _ ih => exact .cons hfirst hfirstEnd (ih hstep)

end Lexer

/-! ### Beginnings -/

/-- A line that is an expression. -/
def Accepted (line : Bytes) : Prop := ∃ ts, tokenize line = .ok ts

/-- A beginning behind which an operand is expected: nothing but blanks, or an
accepted text, an operator and blanks. -/
def OperandPlace (text : Bytes) : Prop :=
  text.all Byte.isBlank ∨ ∃ (accepted : Bytes) (op : Op) (blanks : Bytes), Accepted accepted ∧
    blanks.all Byte.isBlank ∧ text = accepted ++ op.symbol :: blanks

theorem Sentence.accepted (s : Sentence) : Accepted s.text := ⟨s.tokens, s.tokenize_text⟩

/-- Whatever follows an accepted text, the lexer reads the tokens of the text and
then expects an operator, unless a literal of the text goes on. -/
theorem exists_run_of_tokenize {text : Bytes} {ts : List Token} (h : tokenize text = .ok ts) :
    ∃ blanks p, blanks.all Byte.isBlank ∧ p + blanks.length = text.length ∧
      ∀ rest, (∀ fraction, Literal.Stops fraction rest) →
        Lexer.Run (Lexer.start (text ++ rest)) ts ⟨blanks ++ rest, p, .operator⟩ := by
  obtain ⟨s, rfl, rfl⟩ := exists_sentence_of_tokenize h
  obtain ⟨p, hrun⟩ := s.exists_run
  obtain ⟨text, htext, hposition, hexchange⟩ := hrun.exists_text
  replace htext : s.text = text ++ s.trailing := htext
  replace hposition : p = 0 + text.length := hposition
  refine ⟨s.trailing, p, s.trailing_blank, ?_, ?_⟩
  · rw [htext, List.length_append]
    omega
  · intro rest hrest
    rw [htext, List.append_assoc]
    exact hexchange (s.trailing ++ rest) fun fraction _ =>
      .blanks_append s.trailing_blank (hrest fraction)

/-- An operator may follow an accepted text, and then an operand is expected. -/
theorem run_operator_of_tokenize {text : Bytes} {ts : List Token} (h : tokenize text = .ok ts)
    (op : Op) (rest : Bytes) :
    Lexer.Run (Lexer.start (text ++ op.symbol :: rest)) (ts ++ [.operator op])
      ⟨rest, text.length + 1, .operand⟩ := by
  obtain ⟨blanks, p, hblanks, hlength, hrun⟩ := exists_run_of_tokenize h
  have hbefore := hrun (op.symbol :: rest) fun fraction => .symbol op _
  rw [← hlength]
  exact hbefore.concat (.operator hblanks op rest p) rfl

/-- Whatever follows, the lexer comes to a place where an operand is expected. -/
theorem OperandPlace.exists_run {text : Bytes} (h : OperandPlace text) : ∃ ts blanks p,
    blanks.all Byte.isBlank ∧ p + blanks.length = text.length ∧
      (ts = [] ∨ ∃ us op, ts = us ++ [.operator op]) ∧
      ∀ rest, Lexer.Run (Lexer.start (text ++ rest)) ts ⟨blanks ++ rest, p, .operand⟩ := by
  rcases h with hblank | ⟨accepted, op, blanks, haccepted, hblanks, rfl⟩
  · exact ⟨[], text, 0, hblank, Nat.zero_add _, .inl rfl, fun rest => .nil _⟩
  · obtain ⟨ts, hts⟩ := haccepted
    refine ⟨ts ++ [.operator op], blanks, accepted.length + 1, hblanks, ?_, .inr ⟨ts, op, rfl⟩, ?_⟩
    · rw [List.length_append, List.length_cons]
      omega
    · intro rest
      rw [List.append_assoc, List.cons_append]
      exact run_operator_of_tokenize hts op (blanks ++ rest)

end LineCalc
