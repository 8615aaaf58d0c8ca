import LineCalc.Proofs.Message
import LineCalc.Proofs.Sentence
/-!
# LineCalc.Proofs.Literal.Longest

Reading a literal is **maximal munch**: it takes the longest literal that a text starts with,
and fails only where a text starts with none.

* nothing longer is there: a longer literal would start with the one that was read, and behind
  that one stands something that cannot extend it (`Literal.Stops.length_le`), which leaves one
  way only to cut the longer text;
* something is read wherever a literal starts, since any literal brings the digit that reading
  waits for (`Literal.exists_prefix_iff`).
-/

namespace LineCalc

namespace Literal

/-- `l` is the longest literal that `s` starts with. -/
structure IsLongest (s : Bytes) (l : Literal) : Prop where
  begins : l.text <+: s
  longest : ∀ l' : Literal, l'.text <+: s → l'.text.length ≤ l.text.length

/-- In front of something that cannot extend it, no literal is longer than the one that stands
there. -/
theorem Stops.length_le {l l' : Literal} {rest : Bytes} (hstops : Stops l.fraction rest)
    (hbegins : l'.text <+: l.text ++ rest) : l'.text.length ≤ l.text.length := by
  refine Nat.le_of_not_lt fun hlonger => ?_
  obtain ⟨extra, hextra⟩ : l.text <+: l'.text :=
    List.prefix_of_prefix_length_le (List.prefix_append _ _) hbegins (by omega)
  obtain ⟨more, hmore⟩ := hbegins
  rw [← hextra, List.append_assoc] at hmore
  have hrest : extra ++ more = rest := List.append_cancel_left hmore
  -- what `l'` has beyond `l` starts as `rest` does, so it cannot extend `l` either
  have hextends : Stops l.fraction extra := by
    intro b hb
    refine hstops b ?_
    rw [← hrest, List.head?_append, Option.mem_def.mp hb]
    rfl
  have hcut : l.text ++ extra = l'.text ++ [] := by rw [hextra, List.append_nil]
  obtain ⟨rfl, -⟩ := hextends.eq_of_append_eq .nil hcut
  omega

theorem isLongest_of_scan? {s rest : Bytes} {l : Literal} (h : scan? s = some (l, rest)) :
    IsLongest s l := by
  rw [eq_text_append_of_scan? h]
  exact ⟨List.prefix_append _ _, fun _ => (stops_of_scan? h).length_le⟩

/-- A literal is read wherever one starts. -/
theorem exists_prefix_iff {s : Bytes} :
    (∃ l : Literal, l.text <+: s) ↔ ∃ l rest, scan? s = some (l, rest) := by
  constructor
  · rintro ⟨l, more, rfl⟩
    have hscan : scan? (l.text ++ more) ≠ none := by
      obtain ⟨d, ds, hwhole, hd⟩ := l.exists_whole_eq_cons
      rw [ne_eq, scan?_eq_none_iff, scanSign_text_append, hwhole, noDigitAhead_iff]
      simp [hd]
    obtain ⟨⟨l', rest⟩, hfound⟩ := Option.ne_none_iff_exists'.mp hscan
    exact ⟨l', rest, hfound⟩
  · rintro ⟨l, rest, hscan⟩
    exact ⟨l, (isLongest_of_scan? hscan).begins⟩

/-- A literal with a fraction has a point. -/
theorem point_mem_text {l : Literal} (h : l.fraction ≠ none) : Byte.point ∈ l.text := by
  obtain ⟨digits, hdigits⟩ := Option.ne_none_iff_exists'.mp h
  rw [text, hdigits, fractionText]
  exact List.mem_append_right _ (List.mem_append_right _ List.mem_cons_self)

end Literal

namespace Lexer

open Bytes (ofString ofNat)

/-- Where an operand is expected and a digit or a sign comes next, the lexer takes **the longest
literal** that starts there, so no digit follows it, and no point unless it has one already. If
no literal starts there, what comes next is a sign without digits; it is passed by, and an operand
is still expected. -/
theorem next_takes_longest {l : Lexer} {blanks more : Bytes} {b : UInt8}
    (hexpecting : l.expecting = .operand) (hrest : l.rest = blanks ++ b :: more)
    (hblanks : blanks.all Byte.isBlank) (hb : Byte.isDigit b ∨ ∃ s : Sign, s.symbol = b) :
    ((∃ literal : Literal, literal.text <+: b :: more) →
      ∃ literal rest, Literal.IsLongest (b :: more) literal ∧ literal.text ++ rest = b :: more ∧
        (∀ c ∈ rest.head?,
          Byte.isDigit c = false ∧ (c = Byte.point → Byte.point ∈ literal.text)) ∧
        l.next = (.ok (.number literal.number),
          ⟨rest, l.position + blanks.length + literal.text.length, .operator⟩)) ∧
    ((¬ ∃ literal : Literal, literal.text <+: b :: more) →
      ∃ e : ParseError, l.next = (.error e, ⟨more, l.position + blanks.length + 1, .operand⟩) ∧
        e.message = ofString "Expected digits at position " ++
          ofNat (l.position + blanks.length + 1)) := by
  obtain ⟨ahead, p, expecting⟩ := l
  obtain rfl : ahead = blanks ++ b :: more := hrest
  obtain rfl : expecting = .operand := hexpecting
  rw [Literal.exists_prefix_iff]
  constructor
  · rintro ⟨literal, rest, hscan⟩
    have hstops := Literal.stops_of_scan? hscan
    have hsplit := Literal.eq_text_append_of_scan? hscan
    refine ⟨literal, rest, Literal.isLongest_of_scan? hscan, hsplit.symm, ?_, ?_⟩
    · intro c hc
      refine ⟨(hstops c hc).1, fun hpoint => Literal.point_mem_text fun hnone => ?_⟩
      exact (hstops c hc).2 hnone hpoint
    · rw [hsplit]
      exact (Step.number hblanks literal rest hstops p).next_eq
  · intro hnone
    have hscan : Literal.scan? (b :: more) = none := by
      rw [Option.eq_none_iff_forall_ne_some]
      rintro ⟨literal, rest⟩ hfound
      exact hnone ⟨literal, rest, hfound⟩
    rw [Literal.scan?_eq_none_iff] at hscan
    rcases hb with hdigit | ⟨s, rfl⟩
    · -- a digit is a literal by itself
      rw [Literal.scanSign, Sign.ofByte?_of_isDigit hdigit] at hscan
      have hnotDigit : Byte.isDigit b = false := hscan b rfl
      rw [hdigit] at hnotDigit
      contradiction
    · rw [Literal.scanSign, Sign.ofByte?_symbol] at hscan
      exact ⟨_, (Step.detachedSign hblanks s more hscan p).next_eq, ParseError.message_eq _⟩

/-- A second point is left where it stands, and so is the blank behind a sign. -/
theorem next_takes_longest_second_point :
    (∃ literal : Literal, Literal.IsLongest (ofString "-1.5.2") literal ∧
      literal.text = ofString "-1.5" ∧
      next ⟨ofString " -1.5.2", 7, .operand⟩
        = (.ok (.number literal.number), ⟨ofString ".2", 12, .operator⟩)) ∧
    ∃ e : ParseError,
      next ⟨ofString "\t- 3", 0, .operand⟩ = (.error e, ⟨ofString " 3", 2, .operand⟩) ∧
        e.message = ofString "Expected digits at position 2" := by
  constructor
  · let literal : Literal :=
      ⟨some .minus, ofString "1", some (ofString "5"), by decide, by decide, by decide⟩
    have hstarts : literal.text <+: ofString "-1.5.2" := ⟨ofString ".2", by decide⟩
    obtain ⟨longest, rest, hlongest, hsplit, -, hnext⟩ :=
      (@next_takes_longest ⟨ofString " -1.5.2", 7, .operand⟩ (ofString " ") (ofString "1.5.2") 0x2d
        rfl (by decide) (by decide) (.inr ⟨.minus, rfl⟩)).1 ⟨literal, hstarts⟩
    have hplace : (next ⟨ofString " -1.5.2", 7, .operand⟩).2 = ⟨ofString ".2", 12, .operator⟩ := by
      decide
    rw [hnext] at hplace
    obtain rfl : rest = ofString ".2" := congrArg Lexer.rest hplace
    refine ⟨longest, hlongest, ?_, hnext.trans (Prod.ext rfl hplace)⟩
    exact List.append_cancel_right (hsplit.trans (by decide))
  · have hnone : ¬ ∃ literal : Literal, literal.text <+: ofString "- 3" := by
      rw [Literal.exists_prefix_iff]
      rintro ⟨literal, rest, hscan⟩
      have hnothing : Literal.scan? (ofString "- 3") = none := by decide
      rw [hnothing] at hscan
      cases hscan
    exact (@next_takes_longest ⟨ofString "\t- 3", 0, .operand⟩ (ofString "\t") (ofString " 3") 0x2d
      rfl (by decide) (by decide) (.inr ⟨.minus, rfl⟩)).2 hnone

end Lexer

end LineCalc
