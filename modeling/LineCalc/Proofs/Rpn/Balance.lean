import LineCalc.Proofs.Rpn.Postorder
/-!
# LineCalc.Proofs.Rpn.Balance

**Arbitrary code** on the stack machine, not only code that was compiled.

An instruction that pushes makes the stack higher by one, an operator makes it lower
by one, and only operators can fail. So the numbers pushed and the operators applied
so far decide whether the machine gets through (`build_eq_none_iff`) and how much it
leaves (`length_of_build`).

What it leaves is not read off the values but off the trees that `build` puts in their
place: these list the whole of the code that has been run (`listing_of_build`), so code
that leaves one tree is the code of that tree.
-/

namespace LineCalc.Rpn

/-! ### Counting instructions -/

/-- Whether an instruction pushes a number. -/
def Instr.isPush : Instr → Bool
  | push _ => true
  | apply _ => false

/-- How many numbers code pushes. -/
def pushes (code : Code) : Nat := code.countP Instr.isPush

/-- How many operators code applies. -/
def applies (code : Code) : Nat := code.countP fun i => !i.isPush

@[simp] theorem pushes_nil : pushes [] = 0 := rfl

@[simp] theorem applies_nil : applies [] = 0 := rfl

@[simp] theorem pushes_push (x : Number) (code : Code) :
    pushes (.push x :: code) = pushes code + 1 := List.countP_cons_of_pos rfl

@[simp] theorem applies_push (x : Number) (code : Code) :
    applies (.push x :: code) = applies code := List.countP_cons_of_neg nofun

@[simp] theorem pushes_apply (op : Op) (code : Code) :
    pushes (.apply op :: code) = pushes code := List.countP_cons_of_neg nofun

@[simp] theorem applies_apply (op : Op) (code : Code) :
    applies (.apply op :: code) = applies code + 1 := List.countP_cons_of_pos rfl

@[simp] theorem pushes_append (code more : Code) :
    pushes (code ++ more) = pushes code + pushes more := List.countP_append

@[simp] theorem applies_append (code more : Code) :
    applies (code ++ more) = applies code + applies more := List.countP_append

/-- On a stack of the given height the code comes to an operator that finds fewer than
two values. -/
def Overdraws (height : Nat) (code : Code) : Prop :=
  ∃ before, before <+: code ∧ before ≠ [] ∧ height + pushes before ≤ applies before

theorem not_overdraws_nil (height : Nat) : ¬ Overdraws height [] := by
  rintro ⟨before, hprefix, hne, -⟩
  exact hne (List.prefix_nil.mp hprefix)

theorem overdraws_cons {height : Nat} {i : Instr} {code : Code} :
    Overdraws height (i :: code) ↔ height + pushes [i] ≤ applies [i] ∨
      ∃ before, before <+: code ∧ before ≠ [] ∧
        height + pushes (i :: before) ≤ applies (i :: before) := by
  constructor
  · rintro ⟨before, hprefix, hne, hle⟩
    obtain rfl | ⟨more, rfl, hmore⟩ := List.prefix_cons_iff.mp hprefix
    · exact absurd rfl hne
    by_cases hnil : more = []
    · subst hnil
      exact .inl hle
    · exact .inr ⟨more, hmore, hnil, hle⟩
  · rintro (hle | ⟨before, hprefix, -, hle⟩)
    · exact ⟨[i], List.prefix_cons_iff.mpr (.inr ⟨[], rfl, List.nil_prefix⟩), nofun, hle⟩
    · exact ⟨i :: before, List.prefix_cons_iff.mpr (.inr ⟨before, rfl, hprefix⟩), nofun, hle⟩

/-- A number that is pushed can be drawn on. -/
theorem overdraws_push {height : Nat} {x : Number} {code : Code} :
    Overdraws height (.push x :: code) ↔ Overdraws (height + 1) code := by
  have hnot : ¬ height + pushes [.push x] ≤ applies [.push x] := by simp
  rw [overdraws_cons, or_iff_right hnot]
  simp only [Overdraws, pushes_push, applies_push, Nat.add_assoc, Nat.add_comm 1]

/-- An operator draws two values and puts one back. -/
theorem overdraws_apply {height : Nat} {op : Op} {code : Code} :
    Overdraws (height + 2) (.apply op :: code) ↔ Overdraws (height + 1) code := by
  have hnot : ¬ height + 2 + pushes [.apply op] ≤ applies [.apply op] := by simp
  have hle : ∀ m n, height + 2 + m ≤ n + 1 ↔ height + 1 + m ≤ n := by omega
  rw [overdraws_cons, or_iff_right hnot]
  simp only [Overdraws, pushes_apply, applies_apply, hle]

theorem overdraws_apply_of_le {height : Nat} (h : height ≤ 1) (op : Op) (code : Code) :
    Overdraws height (.apply op :: code) := overdraws_cons.mpr (.inl h)

/-! ### The machine on trees -/

/-- Code gets through unless it draws more than there is. -/
theorem build_eq_none_iff {stack : List Expr} {code : Code} :
    build stack code = none ↔ Overdraws stack.length code := by
  induction code generalizing stack with
  | nil => exact iff_of_false nofun (not_overdraws_nil _)
  | cons i code ih =>
    rw [build_cons]
    cases i with
    | push x => exact ih.trans overdraws_push.symm
    | apply op =>
      match stack with
      | r :: l :: stack => exact ih.trans overdraws_apply.symm
      | [l] => exact iff_of_true rfl (overdraws_apply_of_le (by simp) op code)
      | [] => exact iff_of_true rfl (overdraws_apply_of_le (by simp) op code)

/-- An operator that gets through has taken two trees. -/
theorem Instr.exists_of_build_apply {stack stack' : List Expr} {op : Op}
    (h : (apply op).build stack = some stack') :
    ∃ r l rest, stack = r :: l :: rest ∧ stack' = .node op l r :: rest := by
  rcases stack with _ | ⟨r, _ | ⟨l, rest⟩⟩
  · cases h
  · cases h
  · exact ⟨r, l, rest, rfl, (Option.some.inj h).symm⟩

/-- What is left is what was pushed, less one for each operator. -/
theorem length_of_build {stack stack' : List Expr} {code : Code}
    (h : build stack code = some stack') :
    stack'.length + applies code = stack.length + pushes code := by
  induction code generalizing stack with
  | nil =>
    obtain rfl := Option.some.inj h
    rfl
  | cons i code ih =>
    rw [build_cons, Option.bind_eq_some_iff] at h
    obtain ⟨middle, hi, hcode⟩ := h
    have hlength := ih hcode
    cases i with
    | push x =>
      obtain rfl := Option.some.inj hi
      simp only [List.length_cons, pushes_push, applies_push] at hlength ⊢
      omega
    | apply op =>
      obtain ⟨r, l, rest, rfl, rfl⟩ := Instr.exists_of_build_apply hi
      simp only [List.length_cons, pushes_apply, applies_apply] at hlength ⊢
      omega

/-- The code of the trees on a stack, the lowest first. -/
def listing (stack : List Expr) : Code := stack.reverse.flatMap Expr.code

theorem listing_cons (e : Expr) (stack : List Expr) :
    listing (e :: stack) = listing stack ++ e.code := by
  simp [listing]

theorem listing_singleton (e : Expr) : listing [e] = e.code := List.append_nil _

/-- The trees that are left list the code that built them. -/
theorem listing_of_build {stack stack' : List Expr} {code : Code}
    (h : build stack code = some stack') : listing stack ++ code = listing stack' := by
  induction code generalizing stack with
  | nil =>
    obtain rfl := Option.some.inj h
    exact List.append_nil _
  | cons i code ih =>
    rw [build_cons, Option.bind_eq_some_iff] at h
    obtain ⟨middle, hi, hcode⟩ := h
    rw [← ih hcode, List.append_cons]
    congr 1
    cases i with
    | push x =>
      obtain rfl := Option.some.inj hi
      rw [listing_cons, Expr.code]
    | apply op =>
      obtain ⟨r, l, rest, rfl, rfl⟩ := Instr.exists_of_build_apply hi
      simp only [listing_cons, Expr.code, List.append_assoc]

/-! ### Values in place of trees -/

theorem Instr.exec_map_value (stack : List Expr) (i : Instr) :
    i.exec (stack.map Expr.value) = match i.build stack with
      | some stack' => .ok (stack'.map Expr.value)
      | none => .error .stackUnderflow := by
  cases i with
  | push x => rfl
  | apply op => rcases stack with _ | ⟨r, _ | ⟨l, stack⟩⟩ <;> rfl

/-- The machine computes the values of the trees that it would build. -/
theorem exec_map_value (stack : List Expr) (code : Code) :
    exec (stack.map Expr.value) code = match build stack code with
      | some stack' => .ok (stack'.map Expr.value)
      | none => .error .stackUnderflow := by
  induction code generalizing stack with
  | nil => rfl
  | cons i code ih =>
    rw [exec_cons, build_cons, Instr.exec_map_value]
    cases i.build stack with
    | none => rfl
    | some middle => exact ih middle

/-- Code that underflows is refused as such, and all other code by what it leaves. -/
theorem run_eq (code : Code) : run code = match build [] code with
    | some [e] => .ok e.value
    | some _ => .error .notSingleValue
    | none => .error .stackUnderflow := by
  have hexec := exec_map_value [] code
  rw [List.map_nil] at hexec
  rw [run, hexec]
  rcases build [] code with _ | _ | ⟨e, _ | ⟨e', stack⟩⟩ <;> rfl

/-! ### The verdict on code -/

theorem run_eq_stackUnderflow_iff {code : Code} :
    run code = .error .stackUnderflow ↔ Overdraws 0 code := by
  rw [run_eq]
  refine Iff.trans ?_ (@build_eq_none_iff [] code)
  rcases build [] code with _ | _ | ⟨e, _ | ⟨e', stack⟩⟩ <;> simp

/-- Code that does not underflow is the listing of the trees that it leaves. -/
theorem exists_listing_eq {code : Code} (h : ¬ Overdraws 0 code) :
    ∃ stack, build [] code = some stack ∧ listing stack = code ∧
      stack.length + applies code = pushes code := by
  cases hbuild : build [] code with
  | none => exact absurd (build_eq_none_iff.mp hbuild) h
  | some stack =>
    refine ⟨stack, rfl, (listing_of_build hbuild).symm, ?_⟩
    rw [length_of_build hbuild, List.length_nil, Nat.zero_add]

/-- Code that does not underflow runs, and leaves what it has pushed less one value for each
operator. -/
theorem exists_exec_eq {code : Code} (h : ¬ Overdraws 0 code) :
    ∃ stack, exec [] code = .ok stack ∧ stack.length + applies code = pushes code := by
  obtain ⟨stack, hbuild, -, hlength⟩ := exists_listing_eq h
  have hexec := exec_map_value [] code
  rw [List.map_nil, hbuild] at hexec
  refine ⟨stack.map Expr.value, hexec, ?_⟩
  rwa [List.length_map]

/-- Code that does not underflow is the code of a tree if it pushes one number more than
it applies operators. -/
theorem exists_code_eq {code : Code} (h : ¬ Overdraws 0 code)
    (hbalance : pushes code = applies code + 1) : ∃ e : Expr, e.code = code := by
  obtain ⟨stack, -, hlisting, hlength⟩ := exists_listing_eq h
  obtain ⟨e, rfl⟩ : ∃ e, stack = [e] := List.length_eq_one_iff.mp (by omega)
  exact ⟨e, by rw [← hlisting, listing_singleton]⟩

theorem run_eq_notSingleValue_iff {code : Code} (h : ¬ Overdraws 0 code) :
    run code = .error .notSingleValue ↔ pushes code ≠ applies code + 1 := by
  constructor
  · intro hrun hbalance
    obtain ⟨e, rfl⟩ := exists_code_eq h hbalance
    rw [e.run_code] at hrun
    cases hrun
  · intro hbalance
    obtain ⟨stack, hbuild, -, hlength⟩ := exists_listing_eq h
    rw [run_eq, hbuild]
    rcases stack with _ | ⟨e, _ | ⟨e', stack⟩⟩
    · rfl
    · rw [List.length_singleton] at hlength
      omega
    · rfl

theorem run_eq_ok_iff {code : Code} {x : Number} :
    run code = .ok x ↔ ∃ e : Expr, e.code = code ∧ e.value = x := by
  constructor
  · intro hrun
    have hunderflow : ¬ Overdraws 0 code := by
      rw [← run_eq_stackUnderflow_iff, hrun]
      exact nofun
    obtain ⟨stack, hbuild, hlisting, -⟩ := exists_listing_eq hunderflow
    rw [run_eq, hbuild] at hrun
    match stack, hrun with
    | [e], rfl => exact ⟨e, by rw [← hlisting, listing_singleton], rfl⟩
  · rintro ⟨e, rfl, rfl⟩
    exact e.run_code

/-- The machine accepts **postorder listings** and nothing else. A listing has the value
of its tree, and it has one tree only. All other code is refused: as underflowing if some
beginning of it applies as many operators as it pushes numbers or more, and for what it
leaves if numbers and operators do not match up in the end. -/
theorem run_accepts_postorder (code : Code) :
    (∀ x, run code = .ok x ↔ ∃ e : Expr, e.code = code ∧ e.value = x) ∧
    (run code = .error .stackUnderflow ↔
      ∃ before, before <+: code ∧ before ≠ [] ∧ pushes before ≤ applies before) ∧
    ((¬ ∃ before, before <+: code ∧ before ≠ [] ∧ pushes before ≤ applies before) →
      (run code = .error .notSingleValue ↔ pushes code ≠ applies code + 1) ∧
      (pushes code = applies code + 1 → ∃ e : Expr,
        e.code = code ∧ (∀ e' : Expr, e'.code = code → e' = e) ∧ run code = .ok e.value)) ∧
    EvalError.stackUnderflow.message = Bytes.ofString "Stack underflow (bad program)" ∧
    EvalError.notSingleValue.message
      = Bytes.ofString "Program did not reduce to a single value" := by
  have hzero : Overdraws 0 code ↔
      ∃ before, before <+: code ∧ before ≠ [] ∧ pushes before ≤ applies before := by
    simp only [Overdraws, Nat.zero_add]
  rw [← hzero]
  refine ⟨fun x => run_eq_ok_iff, run_eq_stackUnderflow_iff, ?_, rfl, rfl⟩
  intro h
  refine ⟨run_eq_notSingleValue_iff h, fun hbalance => ?_⟩
  obtain ⟨e, rfl⟩ := exists_code_eq h hbalance
  exact ⟨e, rfl, fun e' he' => Expr.code_injective he', e.run_code⟩

/-- `a b - c +` with its operators moved forward: the second finds one value only. -/
example (a b c : Number) :
    run [.push a, .push b, .apply .sub, .apply .add, .push c] = .error .stackUnderflow := rfl

end LineCalc.Rpn
