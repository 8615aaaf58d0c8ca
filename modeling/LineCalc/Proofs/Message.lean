import LineCalc.Error
/-!
# LineCalc.Proofs.Message

A message ends in front of the first zero byte of its wording, and `message_eq`
says what is left of each wording. Fixed words, symbols and decimal numbers hold no
zero byte, so the only message that can lose something is the one that quotes a
byte of the line, and what it loses is everything from the quoted byte on.
-/

namespace LineCalc

open Bytes (ofString ofNat)

namespace Byte

/-- The digits among the characters are written as the digits among the bytes. -/
theorem isDigit_of_mem_utf8EncodeChar {c : Char} (hc : c.isDigit) {b : UInt8}
    (hb : b ∈ String.utf8EncodeChar c) : isDigit b := by
  simp only [Char.isDigit, ge_iff_le, Bool.and_eq_true, decide_eq_true_eq,
    UInt32.le_iff_toNat_le] at hc
  have hfirst : '0'.val.toNat = 48 := rfl
  have hlast : '9'.val.toNat = 57 := rfl
  have hascii : c.val.toNat ≤ 127 := by omega
  rw [String.utf8EncodeChar, if_pos hascii, List.mem_singleton] at hb
  have hvalue : b.toNat = c.val.toNat := by
    rw [hb, UInt8.toNat_ofNat', Nat.mod_eq_of_lt (by omega)]
  have hlow : (0x30 : UInt8).toNat = 48 := rfl
  have hhigh : (0x39 : UInt8).toNat = 57 := rfl
  simp only [isDigit, Bool.and_eq_true, decide_eq_true_eq, UInt8.le_iff_toNat_le]
  omega

end Byte

namespace Bytes

/-- Decimal numbers are written with digits. -/
theorem isDigit_of_mem_ofNat {n : Nat} {b : UInt8} (h : b ∈ ofNat n) : Byte.isDigit b := by
  rw [ofNat, ofString, String.toUTF8, Nat.repr, String.toByteArray_ofList, List.utf8Encode,
    List.data_toByteArray, List.mem_flatMap] at h
  obtain ⟨c, hc, hb⟩ := h
  exact Byte.isDigit_of_mem_utf8EncodeChar
    (Nat.isDigit_of_mem_toDigits (by decide) (by decide) hc) hb

theorem zero_notMem_ofNat (n : Nat) : 0 ∉ ofNat n := fun h =>
  absurd (isDigit_of_mem_ofNat h) (by decide)

/-- A text without zero bytes is kept, and it is all that is kept in front of one. -/
theorem beforeZero_append {text rest : Bytes} (h : 0 ∉ text) (hrest : ∀ b ∈ rest.head?, b = 0) :
    (text ++ rest).beforeZero = text := by
  refine takeWhile_append_of_all ?_ ?_
  · rw [List.all_eq_true]
    intro b hb
    rw [bne_iff_ne]
    rintro rfl
    exact h hb
  · intro b hb
    rw [hrest b hb]
    rfl

theorem beforeZero_of_notMem {text : Bytes} (h : 0 ∉ text) : text.beforeZero = text := by
  have hkept : (text ++ []).beforeZero = text := beforeZero_append h nofun
  rwa [List.append_nil] at hkept

end Bytes

theorem Op.symbol_ne_zero (op : Op) : op.symbol ≠ 0 := by
  cases op <;> decide

namespace ParseError

/-- Zero bytes are only found in a wording that quotes one. -/
theorem zero_notMem_text {e : ParseError} (h : ∀ p, e ≠ unexpectedByte 0 p) : 0 ∉ e.text := by
  have hposition : ∀ (words : Bytes) (p : Nat), 0 ∉ words → 0 ∉ words ++ ofNat p := by
    intro words p hwords
    rw [List.mem_append, not_or]
    exact ⟨hwords, Bytes.zero_notMem_ofNat p⟩
  -- the words in front of a quoted byte, and those behind it
  have hquoted : ∀ (words : Bytes) (b : UInt8) (p : Nat), 0 ∉ words → b ≠ 0 →
      0 ∉ words ++ b :: (ofString "' at position " ++ ofNat p) := by
    intro words b p hwords hb
    rw [List.mem_append, List.mem_cons, not_or, not_or]
    exact ⟨hwords, hb.symm, hposition _ p (by decide)⟩
  cases e with
  | emptyInput => decide
  | expectedNumber p => exact hposition (ofString "Expected a number at position ") p (by decide)
  | expectedDigits p => exact hposition (ofString "Expected digits at position ") p (by decide)
  | unexpectedByte b p =>
    refine hquoted (ofString "Unexpected character '") b p (by decide) ?_
    rintro rfl
    exact h p rfl
  | danglingOperator op p =>
    exact hquoted (ofString "Expected a number after '") op.symbol p (by decide) op.symbol_ne_zero

theorem message_eq_text {e : ParseError} (h : ∀ p, e ≠ unexpectedByte 0 p) :
    e.message = e.text :=
  Bytes.beforeZero_of_notMem (zero_notMem_text h)

/-- The message of each cause. -/
theorem message_eq (e : ParseError) : e.message = match e with
    | emptyInput => ofString "Expected an expression"
    | expectedNumber p => ofString "Expected a number at position " ++ ofNat p
    | expectedDigits p => ofString "Expected digits at position " ++ ofNat p
    | unexpectedByte b p =>
      if b = 0 then ofString "Unexpected character '"
      else ofString "Unexpected character '" ++ b :: (ofString "' at position " ++ ofNat p)
    | danglingOperator op p =>
      ofString "Expected a number after '" ++ op.symbol :: (ofString "' at position " ++ ofNat p)
    := by
  cases e with
  | emptyInput => exact message_eq_text nofun
  | expectedNumber p => exact message_eq_text nofun
  | expectedDigits p => exact message_eq_text nofun
  | unexpectedByte b p =>
    dsimp only
    by_cases hb : b = 0
    · have hwords : 0 ∉ ofString "Unexpected character '" := by decide
      rw [if_pos hb]
      refine Bytes.beforeZero_append hwords ?_
      intro c hc
      rw [← hb]
      exact (Option.some.inj hc).symm
    · rw [if_neg hb]
      refine message_eq_text ?_
      intro q hq
      injection hq with hzero
      exact hb hzero
  | danglingOperator op p => exact message_eq_text nofun

end ParseError

end LineCalc
