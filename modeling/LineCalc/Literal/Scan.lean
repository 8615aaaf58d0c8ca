import LineCalc.Literal.Basic
/-!
# LineCalc.Literal.Scan

`Literal.scan?` reads the **longest literal** that a text starts with.

* `eq_text_append_of_scan?` — reading keeps every byte;
* `stops_of_scan?` — no longer literal was there;
* `scan?_text_append` — what was written is read back, in front of anything that
  cannot extend it.
-/

namespace LineCalc.Literal

/-- Takes a sign off the front, if there is one. -/
def scanSign : Bytes → Option Sign × Bytes
  | [] => (none, [])
  | b :: rest =>
    match Sign.ofByte? b with
    | some s => (some s, rest)
    | none => (none, b :: rest)

/-- Takes a point and the digits behind it off the front, if there is a point. -/
def scanFraction : Bytes → Option Bytes × Bytes
  | [] => (none, [])
  | b :: rest =>
    if b = Byte.point then (some (rest.takeWhile Byte.isDigit), rest.dropWhile Byte.isDigit)
    else (none, b :: rest)

theorem scanFraction_digits (s : Bytes) : ((scanFraction s).1.getD []).all Byte.isDigit := by
  cases s with
  | nil => rfl
  | cons b rest =>
    by_cases hb : b = Byte.point
    · simp [scanFraction, hb, List.all_takeWhile]
    · simp [scanFraction, hb]

/-- The longest literal that a text starts with, and what follows it. -/
def scan? (s : Bytes) : Option (Literal × Bytes) :=
  let signed := scanSign s
  let whole := signed.2.takeWhile Byte.isDigit
  let fractioned := scanFraction (signed.2.dropWhile Byte.isDigit)
  if h : whole = [] then none
  else some
    ({ sign := signed.1
       whole := whole
       fraction := fractioned.1
       whole_ne_nil := h
       whole_digits := List.all_takeWhile
       fraction_digits := scanFraction_digits _ },
     fractioned.2)

theorem scanSign_append (s : Bytes) : signText (scanSign s).1 ++ (scanSign s).2 = s := by
  cases s with
  | nil => rfl
  | cons b rest =>
    cases hb : Sign.ofByte? b with
    | none => simp [scanSign, hb, signText]
    | some sign => simp [scanSign, hb, signText, Sign.ofByte?_eq_some_iff.1 hb]

theorem scanFraction_append (s : Bytes) :
    fractionText (scanFraction s).1 ++ (scanFraction s).2 = s := by
  cases s with
  | nil => rfl
  | cons b rest =>
    by_cases hb : b = Byte.point
    · simp [scanFraction, hb, fractionText, List.takeWhile_append_dropWhile]
    · simp [scanFraction, hb, fractionText]

/-- Reading a literal keeps every byte. -/
theorem eq_text_append_of_scan? {s rest : Bytes} {l : Literal} (h : scan? s = some (l, rest)) :
    s = l.text ++ rest := by
  unfold scan? at h
  dsimp only at h
  split at h
  · contradiction
  · obtain ⟨rfl, rfl⟩ := Prod.mk.inj (Option.some.inj h)
    simp only [text, List.append_assoc]
    rw [scanFraction_append, List.takeWhile_append_dropWhile, scanSign_append]

theorem length_lt_of_scan? {s rest : Bytes} {l : Literal} (h : scan? s = some (l, rest)) :
    rest.length < s.length := by
  have hpos := List.length_pos_iff.2 l.text_ne_nil
  rw [eq_text_append_of_scan? h, List.length_append]
  omega

/-! ### Nothing is lost, and nothing is left -/

/-- What cannot extend a row of digits: it does not start with one. -/
def NoDigitAhead (s : Bytes) : Prop := ∀ b ∈ s.head?, Byte.isDigit b = false

/-- What cannot extend a literal: it starts with no digit, and with a point only
if the literal has one already. -/
def Stops (fraction : Option Bytes) (rest : Bytes) : Prop :=
  ∀ b ∈ rest.head?, Byte.isDigit b = false ∧ (fraction = none → b ≠ Byte.point)

theorem noDigitAhead_dropWhile (s : Bytes) : NoDigitAhead (s.dropWhile Byte.isDigit) :=
  Bytes.head?_dropWhile Byte.isDigit s

theorem scanFraction_stops {s : Bytes} (h : NoDigitAhead s) :
    Stops (scanFraction s).1 (scanFraction s).2 := by
  cases s with
  | nil => simp [Stops, scanFraction]
  | cons b rest =>
    by_cases hb : b = Byte.point
    · intro c hc
      simp only [scanFraction, if_pos hb] at hc ⊢
      exact ⟨noDigitAhead_dropWhile rest c hc, by simp⟩
    · intro c hc
      simp only [scanFraction, if_neg hb, List.head?_cons, Option.mem_some_iff] at hc
      exact hc ▸ ⟨h b rfl, fun _ => hb⟩

theorem scanFraction_fractionText_append {fraction : Option Bytes} {rest : Bytes}
    (hd : (fraction.getD []).all Byte.isDigit) (h : Stops fraction rest) :
    scanFraction (fractionText fraction ++ rest) = (fraction, rest) := by
  cases fraction with
  | none =>
    cases rest with
    | nil => rfl
    | cons b rest => simp [fractionText, scanFraction, (h b rfl).2 rfl]
  | some digits =>
    have hr : NoDigitAhead rest := fun b hb => (h b hb).1
    simp only [fractionText, List.cons_append, scanFraction, if_pos]
    have hds : digits.all Byte.isDigit := hd
    rw [Bytes.takeWhile_append_of_all hds hr, Bytes.dropWhile_append_of_all hds hr]

theorem scanSign_signText_append (sign : Option Sign) {s : Bytes}
    (h : ∀ b ∈ s.head?, Byte.isDigit b = true) : scanSign (signText sign ++ s) = (sign, s) := by
  cases sign with
  | some sign => simp [signText, scanSign]
  | none =>
    cases s with
    | nil => rfl
    | cons b s => simp [signText, scanSign, Sign.ofByte?_of_isDigit (h b rfl)]

/-- A literal is read as far as it goes. -/
theorem stops_of_scan? {s rest : Bytes} {l : Literal} (h : scan? s = some (l, rest)) :
    Stops l.fraction rest := by
  unfold scan? at h
  dsimp only at h
  split at h
  · contradiction
  · obtain ⟨rfl, rfl⟩ := Prod.mk.inj (Option.some.inj h)
    exact scanFraction_stops (noDigitAhead_dropWhile _)

/-- The sign of a literal is read as far as it goes, which is up to a digit. -/
theorem scanSign_text_append (l : Literal) (rest : Bytes) :
    scanSign (l.text ++ rest) = (l.sign, l.whole ++ (fractionText l.fraction ++ rest)) := by
  rw [text, List.append_assoc, List.append_assoc]
  refine scanSign_signText_append l.sign fun b hb => ?_
  obtain ⟨d, ds, hwhole, hd⟩ := l.exists_whole_eq_cons
  rw [hwhole, List.cons_append, List.head?_cons, Option.mem_some_iff] at hb
  exact hb ▸ hd

/-- A written literal is read back, in front of anything that cannot extend it. -/
theorem scan?_text_append {l : Literal} {rest : Bytes} (h : Stops l.fraction rest) :
    scan? (l.text ++ rest) = some (l, rest) := by
  have hahead : NoDigitAhead (fractionText l.fraction ++ rest) := by
    cases hf : l.fraction with
    | none => exact fun b hb => (h b hb).1
    | some digits =>
      intro b hb
      simp only [fractionText, List.cons_append, List.head?_cons, Option.mem_some_iff] at hb
      exact hb ▸ (by decide)
  unfold scan?
  simp only [scanSign_text_append, Bytes.takeWhile_append_of_all l.whole_digits hahead,
    Bytes.dropWhile_append_of_all l.whole_digits hahead,
    scanFraction_fractionText_append l.fraction_digits h, l.whole_ne_nil, dite_false]

end LineCalc.Literal
