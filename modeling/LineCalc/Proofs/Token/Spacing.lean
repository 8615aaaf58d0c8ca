import LineCalc.Proofs.Evaluate
import LineCalc.Proofs.Message
import LineCalc.Proofs.Token.Continuation
/-!
# LineCalc.Proofs.Token.Spacing

**How wide the gaps of a line are does not matter**, nor which blanks they are made of.

`Respaced` relates lines that differ in nothing but that: a gap inside the line is a gap in both
of them, and at the ends of the line blanks may come and go. Lexers that stand at related
places take related steps (`Lexer.Step.abreast`): behind its blanks, each finds the same word, and
what ends a literal in one line ends it in the other. So the lines are read alike, and a
mistake in one is the same mistake in the other, at another position perhaps.
-/

namespace LineCalc

open Bytes (ofString)

/-! ### Lines that differ in their gaps -/

theorem Byte.all_isBlank_append {blanks more : Bytes} (hblanks : blanks.all isBlank)
    (hmore : more.all isBlank) : (blanks ++ more).all isBlank := by
  rw [List.all_append, hblanks, hmore, Bool.and_self]

/-- Behind a byte that is no blank: the same text, but for the gaps that follow. -/
inductive Regapped : Bytes → Bytes → Prop
  /-- Blanks up to the end of the line, or none. -/
  | trailing {blanks blanks' : Bytes} (hblanks : blanks.all Byte.isBlank)
    (hblanks' : blanks'.all Byte.isBlank) : Regapped blanks blanks'
  /-- A byte that is no blank stays where it is. -/
  | byte {b : UInt8} (hb : Byte.isBlank b = false) {rest rest' : Bytes}
    (hrest : Regapped rest rest') : Regapped (b :: rest) (b :: rest')
  /-- A gap stays a gap. -/
  | gap {blanks blanks' : Bytes} (hblanks : blanks.all Byte.isBlank)
    (hblanks' : blanks'.all Byte.isBlank) (hne : blanks ≠ []) (hne' : blanks' ≠ [])
    {rest rest' : Bytes} (hrest : Regapped rest rest') :
    Regapped (blanks ++ rest) (blanks' ++ rest')

/-- The same line, but for its gaps and for the blanks at its start and end. -/
inductive Respaced : Bytes → Bytes → Prop
  | leading {blanks blanks' : Bytes} (hblanks : blanks.all Byte.isBlank)
    (hblanks' : blanks'.all Byte.isBlank) {rest rest' : Bytes} (hrest : Regapped rest rest') :
    Respaced (blanks ++ rest) (blanks' ++ rest')

namespace Regapped

variable {rest rest' : Bytes}

theorem respaced (h : Regapped rest rest') : Respaced rest rest' :=
  @Respaced.leading [] [] rfl rfl rest rest' h

/-- A byte that is no blank stands in both texts. -/
theorem exists_of_cons {b : UInt8} (h : Regapped (b :: rest) rest') (hb : Byte.isBlank b = false) :
    ∃ behind, rest' = b :: behind ∧ Regapped rest behind := by
  have hnot {blanks more : Bytes} (hblanks : blanks.all Byte.isBlank) (hne : blanks ≠ []) :
      b :: rest ≠ blanks ++ more := by
    cases blanks with
    | nil => exact absurd rfl hne
    | cons c blanks =>
      intro hs
      obtain rfl := (List.cons.inj hs).1
      rw [List.all_cons, hb] at hblanks
      cases hblanks
  generalize hs : b :: rest = s at h
  cases h with
  | trailing hblanks hblanks' =>
    rw [← List.append_nil s] at hs
    exact absurd hs (hnot hblanks (by rintro rfl; cases hs))
  | byte hb' hrest =>
    obtain ⟨rfl, rfl⟩ := List.cons.inj hs
    exact ⟨_, rfl, hrest⟩
  | gap hblanks hblanks' hne hne' hrest => exact absurd hs (hnot hblanks hne)

/-- Where one text ends, the other does but for blanks. -/
theorem all_of_nil (h : Regapped [] rest') : rest'.all Byte.isBlank := by
  generalize hs : [] = s at h
  cases h with
  | trailing _ hblanks' => exact hblanks'
  | byte => cases hs
  | gap _ _ hne => exact absurd (List.append_eq_nil_iff.mp hs.symm).1 hne

/-- A word without blanks stands in both texts. -/
theorem exists_of_append {word : Bytes} (h : Regapped (word ++ rest) rest')
    (hword : ∀ b ∈ word, Byte.isBlank b = false) :
    ∃ behind, rest' = word ++ behind ∧ Regapped rest behind := by
  induction word generalizing rest' with
  | nil => exact ⟨rest', rfl, h⟩
  | cons b word ih =>
    obtain ⟨hb, hword⟩ := List.forall_mem_cons.mp hword
    obtain ⟨behind, rfl, hbehind⟩ := h.exists_of_cons hb
    obtain ⟨behind, rfl, hrest⟩ := ih hbehind hword
    exact ⟨behind, rfl, hrest⟩

/-- The texts start with the same byte, unless the second starts with a blank or is empty. -/
theorem head?_mem (h : Regapped rest rest') :
    ∀ b ∈ rest'.head?, Byte.isBlank b = true ∨ b ∈ rest.head? := by
  have hblank {blanks more : Bytes} (hblanks : blanks.all Byte.isBlank) (hne : blanks ≠ []) :
      ∀ b ∈ (blanks ++ more).head?, Byte.isBlank b = true := by
    intro b hb
    cases blanks with
    | nil => exact absurd rfl hne
    | cons c blanks =>
      obtain rfl := Option.some.inj hb
      rw [List.all_cons, Bool.and_eq_true] at hblanks
      exact hblanks.1
  intro b hb
  cases h with
  | trailing hblanks hblanks' =>
    rw [← List.append_nil rest'] at hb
    exact .inl (hblank hblanks' (by rintro rfl; cases hb) b hb)
  | byte => exact .inr hb
  | gap hblanks hblanks' hne hne' hrest => exact .inl (hblank hblanks' hne' b hb)

/-- What cannot extend a row of digits in one text cannot in the other. -/
theorem noDigitAhead (h : Regapped rest rest') (hrest : Literal.NoDigitAhead rest) :
    Literal.NoDigitAhead rest' := by
  intro b hb
  rcases h.head?_mem b hb with hblank | hb
  · exact Byte.isDigit_of_isBlank hblank
  · exact hrest b hb

/-- What ends a literal in one text ends it in the other. -/
theorem endsAlike (h : Regapped rest rest') : Literal.EndsAlike rest rest' := by
  intro fraction hstops b hb
  rcases h.head?_mem b hb with hblank | hb
  · exact ⟨Byte.isDigit_of_isBlank hblank, fun _ => by rintro rfl; cases hblank⟩
  · exact hstops b hb

/-- Each text is blanks, and behind them the texts start with the same byte. -/
theorem exists_split (h : Regapped rest rest') : ∃ blanks blanks' behind behind',
    rest = blanks ++ behind ∧ rest' = blanks' ++ behind' ∧ blanks.all Byte.isBlank ∧
      blanks'.all Byte.isBlank ∧ NoBlankAhead behind ∧ NoBlankAhead behind' ∧
      Regapped behind behind' := by
  induction h with
  | @trailing blanks blanks' hblanks hblanks' =>
    exact ⟨blanks, blanks', [], [], by simp, by simp, hblanks, hblanks', .nil, .nil,
      .trailing rfl rfl⟩
  | byte hb hrest =>
    exact ⟨[], [], _, _, rfl, rfl, rfl, rfl, .cons hb _, .cons hb _, .byte hb hrest⟩
  | gap hblanks hblanks' _ _ _ ih =>
    obtain ⟨more, more', behind, behind', rfl, rfl, hmore, hmore', hahead, hahead', hbehind⟩ := ih
    exact ⟨_, _, behind, behind', (List.append_assoc _ _ _).symm, (List.append_assoc _ _ _).symm,
      Byte.all_isBlank_append hblanks hmore, Byte.all_isBlank_append hblanks' hmore', hahead,
      hahead', hbehind⟩

end Regapped

/-- Behind the blanks in front, one line goes on as the other does. -/
theorem Respaced.exists_of_append {blanks behind line' : Bytes}
    (h : Respaced (blanks ++ behind) line')
    (hblanks : blanks.all Byte.isBlank) (hbehind : NoBlankAhead behind) :
    ∃ blanks' behind', line' = blanks' ++ behind' ∧ blanks'.all Byte.isBlank ∧
      Regapped behind behind' := by
  generalize hline : blanks ++ behind = line at h
  obtain ⟨hleading, hleading', hrest⟩ := h
  obtain ⟨more, more', rest, rest', rfl, rfl, hmore, hmore', hahead, -, hregapped⟩ :=
    hrest.exists_split
  rw [← List.append_assoc] at hline
  obtain ⟨-, rfl⟩ := NoBlankAhead.eq_of_append_eq hbehind hahead hblanks
    (Byte.all_isBlank_append hleading hmore) hline
  exact ⟨_, rest', (List.append_assoc _ _ _).symm, Byte.all_isBlank_append hleading' hmore',
    hregapped⟩

/-! ### Answers that differ in their positions -/

namespace ParseError

/-- The same cause, at another position perhaps. -/
inductive SameKind : ParseError → ParseError → Prop
  | emptyInput : SameKind emptyInput emptyInput
  | expectedNumber (p p' : Nat) : SameKind (expectedNumber p) (expectedNumber p')
  | expectedDigits (p p' : Nat) : SameKind (expectedDigits p) (expectedDigits p')
  | unexpectedByte (b : UInt8) (p p' : Nat) : SameKind (unexpectedByte b p) (unexpectedByte b p')
  | danglingOperator (op : Op) (p p' : Nat) :
    SameKind (danglingOperator op p) (danglingOperator op p')

/-- The same message, but for the position in it, if it shows one. -/
inductive SameWords : Bytes → Bytes → Prop
  | position (words : Bytes) (p p' : Nat) :
    SameWords (words ++ atPosition p) (words ++ atPosition p')
  | equal (message : Bytes) : SameWords message message

theorem SameKind.sameWords {e e' : ParseError} (h : SameKind e e') :
    SameWords e.message e'.message := by
  by_cases hcut : ∃ p, e = .unexpectedByte 0 p
  · -- both messages are cut in front of the zero byte
    obtain ⟨p, rfl⟩ := hcut
    cases h with
    | unexpectedByte b p p' =>
      rw [message_eq, message_eq]
      exact .equal _
  · have hmessage : e.message = e.text := message_eq_text fun p he => hcut ⟨p, he⟩
    have hmessage' : e'.message = e'.text := message_eq_text fun p' he' => by
      subst he'
      cases h with
      | unexpectedByte b p p' => exact hcut ⟨p, rfl⟩
    rw [hmessage, hmessage']
    cases h with
    | emptyInput => exact .equal _
    | expectedNumber p p' => exact .position _ p p'
    | expectedDigits p p' => exact .position _ p p'
    | unexpectedByte b p p' => exact .position _ p p'
    | danglingOperator op p p' => exact .position _ p p'

end ParseError

/-- The same result, or causes of failure of the same kind. -/
inductive ReadAlike {α : Type} : Except ParseError α → Except ParseError α → Prop
  | ok (x : α) : ReadAlike (.ok x) (.ok x)
  | error {e e' : ParseError} (h : e.SameKind e') : ReadAlike (.error e) (.error e')

/-! ### Lexers in lockstep -/

/-- A literal holds no blanks. -/
theorem Literal.isBlank_of_mem_text {l : Literal} {b : UInt8} (h : b ∈ l.text) :
    Byte.isBlank b = false := by
  have hdigits {digits : Bytes} (hall : digits.all Byte.isDigit) (hb : b ∈ digits) :
      Byte.isBlank b = false := Byte.isBlank_of_isDigit (List.all_eq_true.mp hall b hb)
  rw [text, List.mem_append, List.mem_append] at h
  rcases h with hsign | hwhole | hfraction
  · cases hs : l.sign with
    | none => simp [hs, signText] at hsign
    | some s =>
      obtain rfl : b = s.symbol := by simpa [hs, signText] using hsign
      exact s.isBlank_symbol
  · exact hdigits l.whole_digits hwhole
  · have hfractionDigits := l.fraction_digits
    cases hf : l.fraction with
    | none => simp [hf, fractionText] at hfraction
    | some digits =>
      rw [hf] at hfraction hfractionDigits
      rcases List.mem_cons.mp hfraction with rfl | hb
      · rfl
      · exact hdigits hfractionDigits hb

namespace Lexer

/-- Lexers that expect the same, in front of lines that differ in their gaps. -/
structure Abreast (l l' : Lexer) : Prop where
  rest : Respaced l.rest l'.rest
  expecting : l.expecting = l'.expecting

/-- Abreast, lexers answer alike and stay abreast. -/
theorem Step.abreast {l m l' : Lexer} {answer : Except ParseError Token} (h : Step l answer m)
    (habreast : Abreast l l') :
    ∃ answer' m', Step l' answer' m' ∧ ReadAlike answer answer' ∧ Abreast m m' := by
  obtain ⟨line', p', expecting'⟩ := l'
  obtain ⟨hrest, hexpecting⟩ := habreast
  cases h with
  | @atEnd blanks hblanks p expecting =>
    obtain rfl : expecting = expecting' := hexpecting
    have hline : Respaced (blanks ++ []) line' := by rwa [List.append_nil]
    obtain ⟨blanks', behind', rfl, hblanks', hbehind⟩ := hline.exists_of_append hblanks .nil
    have hall := Byte.all_isBlank_append hblanks' hbehind.all_of_nil
    exact ⟨_, _, .atEnd hall p' expecting, .ok _, (Regapped.trailing rfl rfl).respaced, rfl⟩
  | number hblanks literal rest hstops p =>
    obtain rfl : Expecting.operand = expecting' := hexpecting
    obtain ⟨blanks', behind', rfl, hblanks', hbehind⟩ :=
      hrest.exists_of_append hblanks (literal.noBlankAhead_text_append rest)
    obtain ⟨rest', rfl, hrest'⟩ := hbehind.exists_of_append fun _ => Literal.isBlank_of_mem_text
    exact ⟨_, _, .number hblanks' literal rest' (hrest'.endsAlike _ hstops) p', .ok _,
      hrest'.respaced, rfl⟩
  | operator hblanks op rest p =>
    obtain rfl : Expecting.operator = expecting' := hexpecting
    obtain ⟨blanks', behind', rfl, hblanks', hbehind⟩ :=
      hrest.exists_of_append hblanks (.cons op.isBlank_symbol rest)
    obtain ⟨rest', rfl, hrest'⟩ := hbehind.exists_of_cons op.isBlank_symbol
    exact ⟨_, _, .operator hblanks' op rest' p', .ok _, hrest'.respaced, rfl⟩
  | detachedSign hblanks s rest hdigit p =>
    obtain rfl : Expecting.operand = expecting' := hexpecting
    obtain ⟨blanks', behind', rfl, hblanks', hbehind⟩ :=
      hrest.exists_of_append hblanks (.cons s.isBlank_symbol rest)
    obtain ⟨rest', rfl, hrest'⟩ := hbehind.exists_of_cons s.isBlank_symbol
    exact ⟨_, _, .detachedSign hblanks' s rest' (hrest'.noDigitAhead hdigit) p',
      .error (.expectedDigits _ _), hrest'.respaced, rfl⟩
  | noOperand hblanks b hblank hdigit hsign rest p =>
    obtain rfl : Expecting.operand = expecting' := hexpecting
    obtain ⟨blanks', behind', rfl, hblanks', hbehind⟩ :=
      hrest.exists_of_append hblanks (.cons hblank rest)
    obtain ⟨rest', rfl, hrest'⟩ := hbehind.exists_of_cons hblank
    exact ⟨_, _, .noOperand hblanks' b hblank hdigit hsign rest' p',
      .error (.expectedNumber _ _), hbehind.respaced, rfl⟩
  | noOperator hblanks b hblank hop rest p =>
    obtain rfl : Expecting.operator = expecting' := hexpecting
    obtain ⟨blanks', behind', rfl, hblanks', hbehind⟩ :=
      hrest.exists_of_append hblanks (.cons hblank rest)
    obtain ⟨rest', rfl, hrest'⟩ := hbehind.exists_of_cons hblank
    exact ⟨_, _, .noOperator hblanks' b hblank hop rest' p',
      .error (.unexpectedByte b _ _), hbehind.respaced, rfl⟩

/-- Lexers that start abreast give the same tokens for as long as they do give tokens. -/
theorem Run.abreast {l m l' : Lexer} {ts : List Token} (h : Run l ts m) (habreast : Abreast l l') :
    ∃ m', Run l' ts m' ∧ Abreast m m' := by
  induction h generalizing l' with
  | nil l => exact ⟨l', .nil l', habreast⟩
  | cons hstep ht _ ih =>
    obtain ⟨answer', n', hstep', ⟨_⟩, hn⟩ := hstep.abreast habreast
    obtain ⟨m', hrun', hm⟩ := ih hn
    exact ⟨m', .cons hstep' ht hrun', hm⟩

theorem tokens_abreast {l l' : Lexer} (habreast : Abreast l l') : ReadAlike l.tokens l'.tokens := by
  obtain ⟨ts, m, n, hrun, hstop⟩ := l.exists_run
  obtain ⟨m', hrun', hm⟩ := hrun.abreast habreast
  rcases hstop with hend | ⟨e, herror⟩
  · obtain ⟨answer', n', hend', ⟨_⟩, -⟩ := hend.abreast hm
    rw [hrun.tokens_of_end hend, hrun'.tokens_of_end hend']
    exact .ok ts
  · obtain ⟨answer', n', herror', halike, -⟩ := herror.abreast hm
    obtain ⟨hkind⟩ | ⟨hkind⟩ := halike
    rw [hrun.tokens_of_error herror, hrun'.tokens_of_error herror']
    exact .error hkind

end Lexer

/-! ### Lines -/

/-- Lines that differ in their gaps are read alike. -/
theorem Respaced.tokenize {line line' : Bytes} (h : Respaced line line') :
    ReadAlike (tokenize line) (LineCalc.tokenize line') := by
  have habreast : Lexer.Abreast (.start line) (.start line') := ⟨h, rfl⟩
  have halike := Lexer.tokens_abreast habreast
  generalize htokens : (Lexer.start line).tokens = result at halike
  generalize htokens' : (Lexer.start line').tokens = result' at halike
  cases halike with
  | error hkind =>
    rw [tokenize_of_error htokens, tokenize_of_error htokens']
    exact .error hkind
  | ok ts =>
    rw [tokenize_of_tokens htokens, tokenize_of_tokens htokens']
    cases ts.getLast? with
    | none => exact .error .emptyInput
    | some t =>
      cases t with
      | number x => exact .ok ts
      | operator op => exact .error (.danglingOperator op _ _)
      | endOfInput => exact .ok ts

/-- **The gaps of a line do not matter**, be it an expression or not: lines that differ in
nothing else are read as the same tokens, or they fail with messages that have the same words.
So they have the same value, whichever engine looks for it. -/
theorem reading_ignores_gaps {line line' : Bytes} (h : Respaced line line') :
    (∀ ts, tokenize line = .ok ts ↔ tokenize line' = .ok ts) ∧
    (∀ e, tokenize line = .error e → ∃ e', tokenize line' = .error e' ∧
      e.SameKind e' ∧ ParseError.SameWords e.message e'.message) ∧
    ∀ engine x, evaluate line engine = .ok x ↔ evaluate line' engine = .ok x := by
  have halike := h.tokenize
  unfold evaluate
  generalize tokenize line = result at halike ⊢
  generalize tokenize line' = result' at halike ⊢
  cases halike with
  | ok ts => exact ⟨fun _ => .rfl, nofun, fun _ _ => .rfl⟩
  | @error e e' hkind =>
    refine ⟨fun _ => ⟨nofun, nofun⟩, ?_, fun _ _ => ⟨nofun, nofun⟩⟩
    intro _ he
    obtain rfl := Except.error.inj he
    exact ⟨e', rfl, hkind, hkind.sameWords⟩

/-- Behind its sign, `2 +- 3` and a wider line lack the same digits. -/
theorem reading_ignores_gaps_behind_sign :
    Respaced (ofString "2 +- 3") (ofString "\t2\n +-\r3 ") ∧
    (∀ ts, tokenize (ofString "2 +- 3") = .ok ts ↔ tokenize (ofString "\t2\n +-\r3 ") = .ok ts) ∧
    (∀ e, tokenize (ofString "2 +- 3") = .error e →
      ∃ e', tokenize (ofString "\t2\n +-\r3 ") = .error e' ∧
        e.SameKind e' ∧ ParseError.SameWords e.message e'.message) ∧
    ∀ engine x, evaluate (ofString "2 +- 3") engine = .ok x ↔
      evaluate (ofString "\t2\n +-\r3 ") engine = .ok x := by
  have hlines : Respaced (ofString "2 +- 3") (ofString "\t2\n +-\r3 ") := by
    have hline : ofString "2 +- 3"
        = [] ++ 0x32 :: ([0x20] ++ 0x2b :: 0x2d :: ([0x20] ++ [0x33])) := by
      decide
    have hline' : ofString "\t2\n +-\r3 "
        = [0x09] ++ 0x32 :: ([0x0a, 0x20] ++ 0x2b :: 0x2d :: ([0x0d] ++ [0x33, 0x20])) := by
      decide
    rw [hline, hline']
    refine .leading rfl rfl (.byte rfl (.gap rfl rfl ?_ ?_ (.byte rfl (.byte rfl ?_))))
    · exact List.cons_ne_nil _ _
    · exact List.cons_ne_nil _ _
    · exact .gap rfl rfl (List.cons_ne_nil _ _) (List.cons_ne_nil _ _)
        (.byte rfl (.trailing rfl rfl))
  exact ⟨hlines, reading_ignores_gaps hlines⟩

end LineCalc
