import LineCalc.Proofs.Binary64.Display
import LineCalc.Token.Basic
import Mathlib.Data.List.Forall2
import Mathlib.Data.List.Induction
/-!
# LineCalc.Proofs.Token.SequenceText

The **text of a token sequence** tells the sequence, as far as it can: the kind of every token,
and every operator.

* Words that are not empty and hold no separator can be read back from the text that joins them
  (`Bytes.isSeparated_joinWith`), and the texts of tokens are such words.
* The text can be written token by token, a space going in front of a token where anything is
  written already (`Token.foldl_writeBehind`). That is the same text for one reason only: what is
  written behind a token is never empty, so the first token is told by the text and needs no
  index.
* Tokens with the same text differ in nothing but their number (`Token.alike_of_text_eq`).
-/

namespace LineCalc

namespace Bytes

/-! ### Words and separators -/

/-- `text` is made of the `words`, with one separator between neighbours. -/
structure IsSeparated (sep : UInt8) (words : List Bytes) (text : Bytes) : Prop where
  /-- The words stand in their order. -/
  joined : text = [sep].intercalate words
  /-- Splitting gives the words back. The empty text is split into one empty word. -/
  split : text.splitOn sep = if words = [] then [[]] else words
  /-- The text is empty only where there are no words. -/
  nil_iff : text = [] ↔ words = []
  /-- A separator has another byte on either side of it, so it stands alone, and at neither
  end. -/
  alone : ∀ before behind, text = before ++ sep :: behind →
    (∃ b ∈ before.getLast?, b ≠ sep) ∧ ∃ b ∈ behind.head?, b ≠ sep

variable {sep : UInt8}

theorem joinWith_eq_intercalate (words : List Bytes) :
    joinWith sep words = [sep].intercalate words := by
  induction words with
  | nil => rfl
  | cons word words ih =>
    cases words with
    | nil => simp
    | cons next rest =>
      rw [joinWith, ih, List.intercalate_cons_cons, List.append_assoc, List.singleton_append]

/-- Where no word is empty that a text is split into, the text ends with no separator. -/
theorem exists_getLast?_of_splitOn {text : Bytes} (h : [] ∉ text.splitOn sep) :
    ∃ b ∈ text.getLast?, b ≠ sep := by
  rcases List.eq_nil_or_concat text with rfl | ⟨front, b, rfl⟩
  · rw [List.splitOn_nil] at h
    exact absurd List.mem_cons_self h
  · rw [List.concat_eq_append] at h ⊢
    refine ⟨b, List.getLast?_concat, ?_⟩
    rintro rfl
    rw [List.splitOn_append_cons_self, List.splitOn_nil] at h
    exact h (List.mem_append_right _ List.mem_cons_self)

/-- Nor does it start with one. -/
theorem exists_head?_of_splitOn {text : Bytes} (h : [] ∉ text.splitOn sep) :
    ∃ b ∈ text.head?, b ≠ sep := by
  cases text with
  | nil =>
    rw [List.splitOn_nil] at h
    exact absurd List.mem_cons_self h
  | cons b rest =>
    refine ⟨b, rfl, ?_⟩
    rintro rfl
    rw [← List.nil_append (b :: rest), List.splitOn_append_cons_self, List.splitOn_nil] at h
    exact h (List.mem_append_left _ List.mem_cons_self)

/-- Words that are not empty and hold no separator can be told apart when they are joined. -/
theorem isSeparated_joinWith {words : List Bytes} (hne : [] ∉ words)
    (hsep : ∀ word ∈ words, sep ∉ word) : IsSeparated sep words (joinWith sep words) := by
  have hsplit : (joinWith sep words).splitOn sep = if words = [] then [[]] else words := by
    rw [joinWith_eq_intercalate]
    split
    case isTrue h => rw [h, List.intercalate_nil, List.splitOn_nil]
    case isFalse h => exact List.splitOn_intercalate sep hsep h
  have hnil : joinWith sep words = [] ↔ words = [] := by
    constructor
    · intro h
      by_contra hwords
      rw [h, List.splitOn_nil, if_neg hwords] at hsplit
      exact hne (hsplit ▸ List.mem_cons_self)
    · rintro rfl
      rfl
  refine ⟨joinWith_eq_intercalate words, hsplit, hnil, ?_⟩
  intro before behind h
  have hwords : words ≠ [] := by
    rintro rfl
    cases before <;> cases h
  rw [if_neg hwords, h, List.splitOn_append_cons_self] at hsplit
  rw [← hsplit, List.mem_append, not_or] at hne
  exact ⟨exists_getLast?_of_splitOn hne.1, exists_head?_of_splitOn hne.2⟩

end Bytes

namespace Token

open Bytes (ofString IsSeparated)

/-! ### The texts of tokens -/

theorem text_ne_nil (t : Token) : t.text ≠ [] := by
  cases t with
  | number x => exact x.isNumeric_text.ne_nil
  | operator op => exact List.cons_ne_nil _ _
  | endOfInput => decide

theorem space_notMem_text (t : Token) : Byte.space ∉ t.text := by
  cases t with
  | number x => exact x.isNumeric_text.notMem (by decide)
  | operator op => cases op <;> decide
  | endOfInput => decide

/-- Two tokens are **alike** when they differ in nothing but their number. -/
inductive Alike : Token → Token → Prop
  | number (x y : Number) : Alike (.number x) (.number y)
  | operator (op : Op) : Alike (.operator op) (.operator op)
  | endOfInput : Alike .endOfInput .endOfInput

theorem number_text_ne_operator (x : Number) (op : Op) : x.text ≠ [op.symbol] := by
  intro h
  have hany := x.isNumeric_text.any
  rw [h] at hany
  cases op <;> cases hany

theorem number_text_ne_end (x : Number) : x.text ≠ ofString "<end>" := by
  intro h
  have hall := x.isNumeric_text.all
  rw [h] at hall
  exact absurd hall (by decide)

theorem operator_text_ne_end (op : Op) : [op.symbol] ≠ ofString "<end>" := by
  cases op <;> decide

/-- Tokens that are written alike are alike. -/
theorem alike_of_text_eq {t u : Token} (h : t.text = u.text) : Alike t u := by
  cases t with
  | number x =>
    cases u with
    | number y => exact .number x y
    | operator op => exact absurd h (number_text_ne_operator x op)
    | endOfInput => exact absurd h (number_text_ne_end x)
  | operator op =>
    cases u with
    | number x => exact absurd h.symm (number_text_ne_operator x op)
    | operator p =>
      obtain rfl := Op.symbol_injective (List.cons.inj h).1
      exact .operator op
    | endOfInput => exact absurd h (operator_text_ne_end op)
  | endOfInput =>
    cases u with
    | number x => exact absurd h.symm (number_text_ne_end x)
    | operator op => exact absurd h.symm (operator_text_ne_end op)
    | endOfInput => exact .endOfInput

/-! ### The texts of sequences -/

theorem isSeparated_sequenceText (ts : List Token) :
    IsSeparated Byte.space (ts.map text) (sequenceText ts) := by
  refine Bytes.isSeparated_joinWith ?_ ?_
  · intro hmem
    obtain ⟨t, -, ht⟩ := List.mem_map.mp hmem
    exact t.text_ne_nil ht
  · intro word hword
    obtain ⟨t, -, rfl⟩ := List.mem_map.mp hword
    exact t.space_notMem_text

theorem sequenceText_eq_nil_iff {ts : List Token} : sequenceText ts = [] ↔ ts = [] :=
  (isSeparated_sequenceText ts).nil_iff.trans List.map_eq_nil_iff

/-- What is written once a token is written behind `written`: its text, with a space in front
unless nothing is written yet. -/
def writeBehind (written : Bytes) (t : Token) : Bytes :=
  if written = [] then t.text else written ++ Byte.space :: t.text

/-- One more token is written behind the text of those in front of it. -/
theorem sequenceText_concat (ts : List Token) (t : Token) :
    sequenceText (ts ++ [t]) = writeBehind (sequenceText ts) t := by
  unfold writeBehind
  by_cases h : ts = []
  · rw [if_pos (sequenceText_eq_nil_iff.mpr h), h]
    rfl
  · rw [if_neg (mt sequenceText_eq_nil_iff.mp h), sequenceText, List.map_append]
    exact Bytes.joinWith_concat _ _ _ (mt List.map_eq_nil_iff.mp h)

/-- The text of a sequence is written token by token. -/
theorem foldl_writeBehind (ts : List Token) : ts.foldl writeBehind [] = sequenceText ts := by
  induction ts using List.reverseRecOn with
  | nil => rfl
  | append_singleton ts t ih =>
    rw [List.foldl_append, ih, sequenceText_concat]
    rfl

/-- Sequences with the same text have the same texts at every place. -/
theorem map_text_eq_of_sequenceText_eq {ts us : List Token}
    (h : sequenceText ts = sequenceText us) : ts.map text = us.map text := by
  by_cases hts : ts = []
  · obtain rfl := hts
    obtain rfl : us = [] := sequenceText_eq_nil_iff.mp h.symm
    rfl
  · have hus : us ≠ [] := by
      rintro rfl
      exact hts (sequenceText_eq_nil_iff.mp h)
    have hsplit := (isSeparated_sequenceText ts).split
    rw [h, (isSeparated_sequenceText us).split, if_neg (mt List.map_eq_nil_iff.mp hus),
      if_neg (mt List.map_eq_nil_iff.mp hts)] at hsplit
    exact hsplit.symm

/-- Alike tokens are written alike where every number is a NaN. -/
theorem map_text_eq_of_alike {ts us : List Token} (h : List.Forall₂ Alike ts us)
    (hnan : ∀ x, .number x ∈ ts ++ us → x.toFloat.isNaN) : ts.map text = us.map text := by
  induction h with
  | nil => rfl
  | @cons t u ts us htu _ ih =>
    have hrest : ∀ x, .number x ∈ ts ++ us → x.toFloat.isNaN := by
      intro x hx
      refine hnan x ?_
      rcases List.mem_append.mp hx with hx | hx
      · exact List.mem_append_left _ (List.mem_cons_of_mem _ hx)
      · exact List.mem_append_right _ (List.mem_cons_of_mem _ hx)
    have hfirst : t.text = u.text := by
      cases htu with
      | number x y =>
        have hx := hnan x List.mem_cons_self
        have hy := hnan y (List.mem_append_right _ List.mem_cons_self)
        exact (Number.text_of_isNaN hx).trans (Number.text_of_isNaN hy).symm
      | operator op => rfl
      | endOfInput => rfl
    rw [List.map_cons, List.map_cons, hfirst, ih hrest]

/-- The **text of a sequence determines it**. It is made of the texts of the tokens, one space
between neighbours and none elsewhere, and these can be read back from it; so sequences with the
same text have tokens of the same kind, and the same operators, at every place, and where all
numbers are NaNs nothing else counts. -/
theorem sequenceText_determines (ts us : List Token) :
    IsSeparated Byte.space (ts.map text) (sequenceText ts) ∧
    sequenceText ts = ts.foldl writeBehind [] ∧
    (sequenceText ts = sequenceText us → List.Forall₂ Alike ts us) ∧
    ((∀ x, .number x ∈ ts ++ us → x.toFloat.isNaN) →
      (sequenceText ts = sequenceText us ↔ List.Forall₂ Alike ts us)) := by
  have halike : sequenceText ts = sequenceText us → List.Forall₂ Alike ts us := by
    intro h
    have htexts : List.Forall₂ (· = ·) (ts.map text) (us.map text) := by
      rw [List.forall₂_eq_eq_eq]
      exact map_text_eq_of_sequenceText_eq h
    rw [List.forall₂_map_left_iff, List.forall₂_map_right_iff] at htexts
    exact htexts.imp fun _ _ => alike_of_text_eq
  refine ⟨isSeparated_sequenceText ts, (foldl_writeBehind ts).symm, halike, ?_⟩
  intro hnan
  refine ⟨halike, fun h => ?_⟩
  rw [sequenceText, sequenceText, map_text_eq_of_alike h hnan]

/-- A NaN of one kind and a NaN of the other are written alike in a sequence too. -/
theorem sequenceText_determines_nans :
    (∀ x, number x ∈ [number .signaling, operator .sub] ++ [number .nan, operator .sub] →
      x.toFloat.isNaN) ∧
    sequenceText [number .signaling, operator .sub]
      = sequenceText [number .nan, operator .sub] := by
  have hnan : ∀ x,
      number x ∈ [number .signaling, operator .sub] ++ [number .nan, operator .sub] →
      x.toFloat.isNaN := by
    intro x hx
    obtain rfl | rfl : x = .signaling ∨ x = .nan := by simpa using hx
    · decide
    · decide
  refine ⟨hnan, ((sequenceText_determines _ _).2.2.2 hnan).mpr ?_⟩
  exact .cons (.number .signaling .nan) (.cons (.operator .sub) .nil)

/-- Both kinds of NaN, an operator, and an end mark within a sequence. -/
example : sequenceText [.number .signaling, .operator .sub, .endOfInput, .number .nan]
    = ofString "nan - <end> nan" := by decide

end Token

end LineCalc
