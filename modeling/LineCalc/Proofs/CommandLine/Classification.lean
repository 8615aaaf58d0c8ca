import LineCalc.Proofs.CommandLine.Arguments
import Mathlib.Data.List.TakeWhile
/-!
# LineCalc.Proofs.CommandLine.Classification

What **all arguments together** ask for, said without going through them one by one.

The first `--` parts the arguments (`inFront`, `behind`). In front of it the flags are
set apart from the words; behind it there are words only. If no argument in front is an
unknown flag, reading the arguments comes to setting all the flags first and joining all the
words then (`Options.parseFrom_eq_foldl`), because flags and words do not get in each
other's way. Otherwise the first unknown flag is what is reported, whatever stands behind it
(`Options.parseFrom_eq_error`).
-/

namespace LineCalc.CommandLine

open Bytes (ofString)

/-! ### The parts of the arguments -/

/-- The arguments in front of the first `--`, or all of them. -/
def inFront (args : List Bytes) : List Bytes := args.takeWhile (· ≠ endOfFlags)

/-- The arguments behind the first `--`, any further `--` included. -/
def behind (args : List Bytes) : List Bytes := (args.dropWhile (· ≠ endOfFlags)).tail

/-- The arguments that are flags. -/
def flagArguments : List Bytes :=
  [ofString "-h", ofString "--help", ofString "-v", ofString "--verbose", ofString "--rpn"]

/-- The words of the expression: what is no flag in front of `--`, and all behind it. -/
def words (args : List Bytes) : List Bytes :=
  (inFront args).filter (· ∉ flagArguments) ++ behind args

/-- An argument that is no flag, but a hyphen with something behind it that is no digit. -/
structure IsUnknown (arg : Bytes) : Prop where
  not_flag : arg ∉ flagArguments
  form : ∃ second rest, arg = Byte.hyphen :: second :: rest ∧ Byte.isDigit second = false

/-- `AsksFor args opts`: options that are as the arguments have it. -/
structure AsksFor (args : List Bytes) (opts : Options) : Prop where
  help : opts.help = true ↔ ofString "-h" ∈ inFront args ∨ ofString "--help" ∈ inFront args
  verbose : opts.verbose = true ↔
    ofString "-v" ∈ inFront args ∨ ofString "--verbose" ∈ inFront args
  engine : opts.engine = .rpn ↔ ofString "--rpn" ∈ inFront args
  /-- Words are joined by single spaces; without words there is no expression. -/
  expression : opts.expression =
    if words args = [] then none else some (Bytes.joinWith Byte.space (words args))

section Parts

variable {arg : Bytes} (rest : List Bytes)

@[simp] theorem inFront_endOfFlags : inFront (endOfFlags :: rest) = [] := by
  simp [inFront]

theorem inFront_cons (h : arg ≠ endOfFlags) : inFront (arg :: rest) = arg :: inFront rest := by
  simp [inFront, h]

@[simp] theorem words_endOfFlags : words (endOfFlags :: rest) = rest := by
  simp [words, behind]

theorem behind_cons (h : arg ≠ endOfFlags) : behind (arg :: rest) = behind rest := by
  simp [behind, h]

theorem words_cons_of_mem (hend : arg ≠ endOfFlags) (h : arg ∈ flagArguments) :
    words (arg :: rest) = words rest := by
  simp [words, inFront_cons rest hend, behind_cons rest hend, h]

theorem words_cons_of_notMem (hend : arg ≠ endOfFlags) (h : arg ∉ flagArguments) :
    words (arg :: rest) = arg :: words rest := by
  simp [words, inFront_cons rest hend, behind_cons rest hend, h]

end Parts

/-! ### Flags and unknown flags -/

theorem Flag.ofArgument?_eq_none_iff {arg : Bytes} :
    ofArgument? arg = none ↔ arg ∉ flagArguments := by
  have hspellings : flagArguments = spellings.map Prod.fst := rfl
  rw [hspellings, ofArgument?, List.lookup_eq_none_iff, List.mem_map]
  constructor
  · rintro h ⟨spelling, hspelling, rfl⟩
    simpa using h spelling hspelling
  · intro h spelling hspelling
    rw [bne_iff_ne]
    rintro rfl
    exact h ⟨spelling, hspelling, rfl⟩

theorem looksLikeFlag_iff {arg : Bytes} : looksLikeFlag arg = true ↔
    ∃ second rest, arg = Byte.hyphen :: second :: rest ∧ Byte.isDigit second = false := by
  rcases arg with _ | ⟨first, _ | ⟨second, rest⟩⟩
  · simp [looksLikeFlag]
  · simp [looksLikeFlag]
  · simp [looksLikeFlag]

theorem isUnknown_iff {arg : Bytes} :
    IsUnknown arg ↔ Flag.ofArgument? arg = none ∧ looksLikeFlag arg = true := by
  rw [Flag.ofArgument?_eq_none_iff, looksLikeFlag_iff]
  exact ⟨fun h => ⟨h.not_flag, h.form⟩, fun h => ⟨h.1, h.2⟩⟩

instance : DecidablePred IsUnknown := fun _ => decidable_of_iff _ isUnknown_iff.symm

theorem ne_endOfFlags_of_mem_inFront {args : List Bytes} {arg : Bytes} (h : arg ∈ inFront args) :
    arg ≠ endOfFlags := by
  simpa using List.mem_takeWhile_imp h

namespace Options

/-! ### Setting many flags -/

/-- Whether a flag is set. -/
def has (opts : Options) : Flag → Bool
  | .help => opts.help
  | .verbose => opts.verbose
  | .rpn => opts.engine == .rpn

theorem has_default (flag : Flag) : default.has flag = false := by
  cases flag <;> rfl

theorem has_set (opts : Options) (flag flag' : Flag) :
    (opts.set flag).has flag' = true ↔ flag' = flag ∨ opts.has flag' = true := by
  cases flag <;> cases flag' <;> simp [has, set]

theorem has_foldl_set (opts : Options) (flags : List Flag) (flag : Flag) :
    (flags.foldl set opts).has flag = true ↔ flag ∈ flags ∨ opts.has flag = true := by
  induction flags generalizing opts with
  | nil => simp
  | cons first flags ih => rw [List.foldl_cons, ih, has_set, List.mem_cons, or_left_comm, or_assoc]

@[simp] theorem expression_foldl_set (opts : Options) (flags : List Flag) :
    (flags.foldl set opts).expression = opts.expression := by
  induction flags generalizing opts with
  | nil => rfl
  | cons first flags ih => rw [List.foldl_cons, ih, expression_set]

@[simp] theorem has_addWord (opts : Options) (word : Bytes) (flag : Flag) :
    (opts.addWord word).has flag = opts.has flag := by
  cases flag <;> rfl

@[simp] theorem has_foldl_addWord (opts : Options) (words : List Bytes) (flag : Flag) :
    (words.foldl addWord opts).has flag = opts.has flag := by
  induction words generalizing opts with
  | nil => rfl
  | cons word words ih => rw [List.foldl_cons, ih, has_addWord]

/-- A word may be added before the flags are set, or afterwards. -/
theorem foldl_set_addWord (opts : Options) (flags : List Flag) (word : Bytes) :
    flags.foldl set (opts.addWord word) = (flags.foldl set opts).addWord word := by
  induction flags generalizing opts with
  | nil => rfl
  | cons flag flags ih => rw [List.foldl_cons, List.foldl_cons, ← addWord_set, ih]

/-! ### All arguments -/

/-- Arguments that are all known set their flags, and join their words. -/
theorem parseFrom_eq_foldl (opts : Options) {args : List Bytes}
    (h : ∀ arg ∈ inFront args, ¬ IsUnknown arg) :
    parseFrom opts args = .ok ((words args).foldl addWord
      (((inFront args).filterMap Flag.ofArgument?).foldl set opts)) := by
  induction args generalizing opts with
  | nil => rfl
  | cons arg rest ih =>
    by_cases hend : arg = endOfFlags
    · subst hend
      rw [parseFrom_endOfFlags, words_endOfFlags, inFront_endOfFlags]
      rfl
    · rw [inFront_cons rest hend] at h ⊢
      obtain ⟨harg, hrest⟩ := List.forall_mem_cons.mp h
      cases hflag : Flag.ofArgument? arg with
      | some flag =>
        have hmem : arg ∈ flagArguments := by
          by_contra hmem
          rw [← Flag.ofArgument?_eq_none_iff, hflag] at hmem
          cases hmem
        rw [parseFrom_flag _ _ hflag, ih _ hrest, words_cons_of_mem rest hend hmem,
          List.filterMap_cons_some hflag, List.foldl_cons]
      | none =>
        have hform : looksLikeFlag arg = false := by
          by_contra hform
          exact harg (isUnknown_iff.mpr ⟨hflag, by simpa using hform⟩)
        have hmem := Flag.ofArgument?_eq_none_iff.mp hflag
        rw [parseFrom_word _ _ hform, ih _ hrest, words_cons_of_notMem rest hend hmem,
          List.filterMap_cons_none hflag, List.foldl_cons, foldl_set_addWord]

/-- The first unknown argument is reported. -/
theorem parseFrom_eq_error (opts : Options) {before : List Bytes} (hend : endOfFlags ∉ before)
    (hbefore : ∀ arg ∈ before, ¬ IsUnknown arg) {arg : Bytes} (hne : arg ≠ endOfFlags)
    (harg : IsUnknown arg) (rest : List Bytes) :
    parseFrom opts (before ++ arg :: rest) = .error (.unknownOption arg) := by
  induction before generalizing opts with
  | nil =>
    obtain ⟨hflag, hform⟩ := isUnknown_iff.mp harg
    exact parseFrom_unknown opts rest hne hflag hform
  | cons first before ih =>
    rw [List.mem_cons, not_or] at hend
    obtain ⟨hfirst, hbefore⟩ := List.forall_mem_cons.mp hbefore
    rw [List.cons_append]
    cases argument_cases first with
    | endOfFlags => exact absurd rfl hend.1
    | flag flag hflag => rw [parseFrom_flag _ _ hflag, ih _ hend.2 hbefore]
    | unknown _ hflag hform => exact absurd (isUnknown_iff.mpr ⟨hflag, hform⟩) hfirst
    | word hform => rw [parseFrom_word _ _ hform, ih _ hend.2 hbefore]

end Options

/-- A flag is set in front of `--` exactly if it is spelled there. -/
theorem mem_filterMap_inFront_iff {args : List Bytes} {flag : Flag} :
    flag ∈ (inFront args).filterMap Flag.ofArgument? ↔
      ∃ arg, (arg, flag) ∈ Flag.spellings ∧ arg ∈ inFront args := by
  rw [List.mem_filterMap]
  constructor
  · rintro ⟨arg, harg, hflag⟩
    obtain ⟨front, back, hspellings, -⟩ := List.lookup_eq_some_iff.mp hflag
    exact ⟨arg, by rw [hspellings]; simp, harg⟩
  · rintro ⟨arg, hspelled, harg⟩
    exact ⟨arg, harg, Flag.ofArgument?_of_mem hspelled⟩

/-- The flags and words of the arguments are what they ask for. -/
theorem asksFor_foldl (args : List Bytes) : AsksFor args ((words args).foldl Options.addWord
    (((inFront args).filterMap Flag.ofArgument?).foldl Options.set .default)) := by
  have hexpression : (((inFront args).filterMap Flag.ofArgument?).foldl Options.set
      .default).expression = none := Options.expression_foldl_set _ _
  have hflag (flag : Flag) : ((words args).foldl Options.addWord
      (((inFront args).filterMap Flag.ofArgument?).foldl Options.set .default)).has flag = true ↔
      ∃ arg, (arg, flag) ∈ Flag.spellings ∧ arg ∈ inFront args := by
    rw [Options.has_foldl_addWord, Options.has_foldl_set, mem_filterMap_inFront_iff,
      Options.has_default]
    exact or_iff_left Bool.false_ne_true
  generalize ((inFront args).filterMap Flag.ofArgument?).foldl Options.set .default = opts
    at hexpression hflag ⊢
  refine ⟨(hflag .help).trans ?_, (hflag .verbose).trans ?_,
    beq_iff_eq.symm.trans ((hflag .rpn).trans ?_), ?_⟩
  · simp [Flag.spellings]
  · simp [Flag.spellings]
  · simp [Flag.spellings]
  · by_cases hwords : words args = []
    · rw [if_pos hwords, hwords]
      exact hexpression
    · rw [if_neg hwords, Options.foldl_addWord opts hexpression hwords]

/-- **Every list of arguments is classified.** Either one in front of `--` is an unknown flag,
and the first such is reported, or the arguments are read, and the options are what they
ask for. -/
theorem parse_classifies (args : List Bytes) :
    (∃ before arg after, inFront args = before ++ arg :: after ∧
      (∀ arg' ∈ before, ¬ IsUnknown arg') ∧ IsUnknown arg ∧
      ∃ e, Options.parse args = .error e ∧ e.message = ofString "Unknown option: " ++ arg) ∨
    ((∀ arg ∈ inFront args, ¬ IsUnknown arg) ∧
      ∃ opts, Options.parse args = .ok opts ∧ AsksFor args opts) := by
  cases hfind : (inFront args).find? fun arg => decide (IsUnknown arg) with
  | none =>
    have hknown : ∀ arg ∈ inFront args, ¬ IsUnknown arg := by simpa using hfind
    exact .inr ⟨hknown, _, Options.parseFrom_eq_foldl _ hknown, asksFor_foldl args⟩
  | some arg =>
    obtain ⟨harg, before, after, hfront, hbefore⟩ := List.find?_eq_some_iff_append.mp hfind
    replace harg : IsUnknown arg := of_decide_eq_true harg
    replace hbefore : ∀ arg' ∈ before, ¬ IsUnknown arg' := by simpa using hbefore
    have hargs : args = before ++ arg :: (after ++ args.dropWhile (· ≠ endOfFlags)) := by
      rw [← List.cons_append, ← List.append_assoc, ← hfront]
      exact List.takeWhile_append_dropWhile.symm
    have hne : ∀ arg' ∈ before ++ arg :: after, arg' ≠ endOfFlags := by
      rw [← hfront]
      exact fun _ => ne_endOfFlags_of_mem_inFront
    have hend : endOfFlags ∉ before := fun h => hne _ (List.mem_append_left _ h) rfl
    have hparse := Options.parseFrom_eq_error .default hend hbefore (hne arg (by simp)) harg
      (after ++ args.dropWhile (· ≠ endOfFlags))
    rw [← hargs] at hparse
    exact .inl ⟨before, arg, after, hfront, hbefore, harg, _, hparse, rfl⟩

/-- Two empty words make up one space. -/
example : Options.parse [[], []] = .ok
    { help := false, verbose := false, engine := .reduction, expression := some [Byte.space] } :=
  rfl

end LineCalc.CommandLine
