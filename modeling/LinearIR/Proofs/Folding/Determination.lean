import LinearIR.Proofs.Folding.Lockstep

/-!
# What a block determines

The folder keeps what it knows in a map that every instruction changes. Read off the code, a
variable is known to be an operand exactly if some instruction before has settled it as that
operand and nothing on the straight way from there has taken it back.
-/

set_option autoImplicit false

namespace LinearIR

/-- The instruction leaves it known that a variable is an operand: it writes neither the variable
nor one that the operand reads, and control goes on behind it. -/
structure Instruction.Keeps (instruction : Instruction Value) (name : Variable)
    (operand : Operand Value) : Prop where
  goesOn : instruction.transfersControl = false
  unwritten : ∀ destination ∈ instruction.result?,
    name ≠ destination ∧ operand.mentions destination = false

namespace Code

/-- The instruction at a source position settles a variable as an operand that does not read the
variable itself, and every instruction between there and another position keeps that. If the
folder forgets at labels, there is none on the way, the other position included. -/
structure Determines (code : Code Value) (options : FoldOptions) (source position : Nat)
    (name : Variable) (operand : Operand Value) : Prop where
  earlier : source < position
  settles : ∃ instruction, code[source]? = some instruction ∧ instruction.result? = some name ∧
    (instruction.narrow (code.knownAt options source)).result? = some operand
  unmentioned : operand.mentions name = false
  kept : ∀ between instruction, source < between → between < position →
    code[between]? = some instruction → instruction.Keeps name operand
  unlabelled : options.resetAtLabels = true → ∀ between instruction, source < between →
    between ≤ position → code[between]? = some instruction → instruction.isLabel = false

/-- The instruction at a position tells that a variable is an operand. -/
def Tells (code : Code Value) (options : FoldOptions) (position : Nat) (name : Variable)
    (operand : Operand Value) : Prop :=
  ∃ instruction, code[position]? = some instruction ∧
    (instruction.narrow (code.knownAt options position)).fact? = some (name, operand)

end Code

namespace Known

variable {known : Known} {options : FoldOptions} {instruction : Instruction Value}
  {name : Variable} {operand : Operand Value}

theorem get?_enter_eq_some_iff :
    (known.enter options instruction).get? name = some operand ↔
      known.get? name = some operand ∧
        (options.resetAtLabels = true → instruction.isLabel = false) := by
  have nothing : (∅ : Known).get? name = none := rfl
  cases reset : options.resetAtLabels <;> cases label : instruction.isLabel <;>
    simp [enter, reset, label, nothing]

theorem get?_leave_narrow_eq_some_iff :
    (known.leave (instruction.narrow known)).get? name = some operand ↔
      (instruction.narrow known).fact? = some (name, operand) ∨
        known.get? name = some operand ∧ instruction.Keeps name operand := by
  have sameResult : (instruction.narrow known).instruction.result? = instruction.result? :=
    instruction.result?_mapOperands _
  have sameTransfer : (instruction.narrow known).instruction.transfersControl =
      instruction.transfersControl := by
    simp [Instruction.narrow, Instruction.transfersControl]
  rw [get?_leave_eq_some_iff, sameResult, sameTransfer]
  constructor
  · rintro ⟨goesOn, fact | ⟨before, unwritten⟩⟩
    · exact .inl fact
    · exact .inr ⟨before, goesOn, unwritten⟩
  · rintro (fact | ⟨before, goesOn, unwritten⟩)
    · obtain ⟨writes, -, -⟩ := Narrowed.fact?_eq_some_iff.mp fact
      rw [sameResult] at writes
      exact ⟨Instruction.transfersControl_of_result? writes, .inl fact⟩
    · exact ⟨goesOn, .inr ⟨before, unwritten⟩⟩

end Known

namespace Code

variable {code : Code Value} {options : FoldOptions} {source position : Nat} {name : Variable}
  {operand : Operand Value}

theorem tells_iff :
    code.Tells options position name operand ↔
      (∃ instruction, code[position]? = some instruction ∧ instruction.result? = some name ∧
        (instruction.narrow (code.knownAt options position)).result? = some operand) ∧
      operand.mentions name = false := by
  simp only [Tells, Narrowed.fact?_eq_some_iff, Instruction.narrow,
    Instruction.result?_mapOperands]
  constructor
  · rintro ⟨instruction, found, writes, settled, unmentioned⟩
    exact ⟨⟨instruction, found, writes, settled⟩, unmentioned⟩
  · rintro ⟨⟨instruction, found, writes, settled⟩, unmentioned⟩
    exact ⟨instruction, found, writes, settled, unmentioned⟩

theorem get?_knownAt_zero : (code.knownAt options 0).get? name = none := by
  cases found : code[0]? with
  | none => simp only [knownAt, found]; rfl
  | some instruction =>
      rw [knownAt_zero found, Known.enter]
      split <;> rfl

/-- The step lemma for the map: what is known one position later was told by the instruction
passed, or was known in front of it and is kept by it. -/
theorem get?_knownAt_succ_eq_some_iff :
    (code.knownAt options (position + 1)).get? name = some operand ↔
      (code.Tells options position name operand ∨
        (code.knownAt options position).get? name = some operand ∧
          ∀ instruction, code[position]? = some instruction → instruction.Keeps name operand) ∧
      (options.resetAtLabels = true → ∀ next, code[position + 1]? = some next →
        next.isLabel = false) := by
  cases found : code[position]? with
  | none =>
      -- Past the end nothing changes any more.
      have outside : code[position + 1]? = none :=
        List.getElem?_eq_none_iff.mpr (Nat.le_succ_of_le (List.getElem?_eq_none_iff.mp found))
      have same : code.knownAt options (position + 1) = code.knownAt options position := by
        simp [knownAt, found, outside, List.take_add_one]
      simp [same, outside, Tells, found]
  | some instruction =>
      have told : code.Tells options position name operand ↔
          (instruction.narrow (code.knownAt options position)).fact? = some (name, operand) := by
        simp [Tells, found]
      have left : ((code.knownAt options position).leave
            (instruction.narrow (code.knownAt options position))).get? name = some operand ↔
          code.Tells options position name operand ∨
            (code.knownAt options position).get? name = some operand ∧
              instruction.Keeps name operand := by
        rw [told]
        exact Known.get?_leave_narrow_eq_some_iff
      cases nextFound : code[position + 1]? with
      | none =>
          have behind : code.knownAt options (position + 1) =
              (code.knownAt options position).leave
                (instruction.narrow (code.knownAt options position)) := by
            simp [knownAt, found, nextFound, List.take_add_one, Known.after]
          simp [behind, left]
      | some next =>
          rw [knownAt_succ found nextFound, Known.get?_enter_eq_some_iff, left]
          simp

/-- The step lemma for the code, with the same cases. -/
theorem determines_succ_iff :
    code.Determines options source (position + 1) name operand ↔
      ((source = position ∧ code.Tells options position name operand) ∨
        code.Determines options source position name operand ∧
          ∀ instruction, code[position]? = some instruction → instruction.Keeps name operand) ∧
      (options.resetAtLabels = true → ∀ next, code[position + 1]? = some next →
        next.isLabel = false) := by
  constructor
  · intro determines
    refine ⟨?_, fun reset next found =>
      determines.unlabelled reset _ next determines.earlier (Nat.le_refl _) found⟩
    rcases Nat.lt_succ_iff_lt_or_eq.mp determines.earlier with earlier | here
    · refine .inr ⟨⟨earlier, determines.settles, determines.unmentioned, ?_, ?_⟩, ?_⟩
      · intro between instruction later before found
        exact determines.kept between instruction later (Nat.lt_succ_of_lt before) found
      · intro reset between instruction later before found
        exact determines.unlabelled reset between instruction later (Nat.le_succ_of_le before) found
      · intro instruction found
        exact determines.kept position instruction earlier (Nat.lt_succ_self position) found
    · subst here
      exact .inl ⟨rfl, tells_iff.mpr ⟨determines.settles, determines.unmentioned⟩⟩
  · rintro ⟨⟨rfl, told⟩ | ⟨determines, keeps⟩, noLabel⟩
    · obtain ⟨settles, unmentioned⟩ := tells_iff.mp told
      refine ⟨Nat.lt_succ_self source, settles, unmentioned, ?_, ?_⟩
      · intro between instruction later before
        omega
      · intro reset between instruction later before found
        obtain rfl : between = source + 1 := by omega
        exact noLabel reset instruction found
    · refine ⟨Nat.lt_succ_of_lt determines.earlier, determines.settles, determines.unmentioned,
        ?_, ?_⟩
      · intro between instruction later before found
        rcases Nat.lt_succ_iff_lt_or_eq.mp before with before | rfl
        · exact determines.kept between instruction later before found
        · exact keeps instruction found
      · intro reset between instruction later before found
        rcases Nat.lt_or_eq_of_le before with before | rfl
        · exact determines.unlabelled reset between instruction later (Nat.le_of_lt_succ before)
            found
        · exact noLabel reset instruction found

/-- The folder knows exactly what the code up to a position determines. An instruction is narrowed
by what is known at its position, and there a variable is known to be an operand if and only if an
instruction before has settled it so, and none since then writes the variable or a variable that
the operand reads, transfers control or, where the folder forgets at labels, is a label. -/
theorem knownAt_determined (code : Code Value) (options : FoldOptions) (position : Nat) :
    (code.fold options).instructions[position]? =
        code[position]?.map (fun instruction =>
          (instruction.narrow (code.knownAt options position)).instruction) ∧
      ∀ name operand, (code.knownAt options position).get? name = some operand ↔
        ∃ source, code.Determines options source position name operand := by
  refine ⟨getElem?_fold position, fun name operand => ?_⟩
  induction position with
  | zero =>
      constructor
      · intro bound
        rw [get?_knownAt_zero] at bound
        cases bound
      · rintro ⟨source, determines⟩
        exact absurd determines.earlier (Nat.not_lt_zero source)
  | succ position ih =>
      rw [get?_knownAt_succ_eq_some_iff, ih]
      simp only [determines_succ_iff]
      constructor
      · rintro ⟨told | ⟨⟨source, determines⟩, keeps⟩, noLabel⟩
        · exact ⟨position, .inl ⟨rfl, told⟩, noLabel⟩
        · exact ⟨source, .inr ⟨determines, keeps⟩, noLabel⟩
      · rintro ⟨source, ⟨-, told⟩ | ⟨determines, keeps⟩, noLabel⟩
        · exact ⟨.inl told, noLabel⟩
        · exact ⟨.inr ⟨⟨source, determines⟩, keeps⟩, noLabel⟩

/-- What is known of `x` is taken back by a write to `y`, which it reads. -/
example : let code : Code Value := [.copy ⟨"x"⟩ (.array [.var ⟨"y"⟩]), .copy ⟨"z"⟩ .self,
      .copy ⟨"y"⟩ .self, .ret (.var ⟨"x"⟩)]
    (code.knownAt {} 2).get? ⟨"x"⟩ = some (.array [.var ⟨"y"⟩]) ∧
      (code.knownAt {} 3).get? ⟨"x"⟩ = none := by
  decide

end Code

end LinearIR
