import LinearIR.Execution.Run

/-!
# Where jumps continue

A jump continues at the last definition of its label, so only the positions of definitions in the
code matter.
-/

set_option autoImplicit false

namespace LinearIR

variable {V W : Type}

theorem Instruction.defines_iff {instruction : Instruction V} {target : Label} :
    instruction.defines target = true ↔ instruction = .label target := by
  cases instruction <;> simp [defines]

namespace Code

def Undefined (code : Code V) (target : Label) : Prop :=
  ∀ instruction ∈ code, instruction.defines target = false

instance (code : Code V) (target : Label) : Decidable (code.Undefined target) :=
  inferInstanceAs (Decidable (∀ instruction ∈ code, _))

theorem labelPosition?_cons (target : Label) (instruction : Instruction V) (rest : Code V) :
    labelPosition? target (instruction :: rest) =
      match labelPosition? target rest with
      | some position => some (position + 1)
      | none => if instruction.defines target then some 0 else none := rfl

theorem labelPosition?_append (target : Label) (before after : Code V) :
    labelPosition? target (before ++ after) =
      match labelPosition? target after with
      | some position => some (before.length + position)
      | none => labelPosition? target before := by
  induction before with
  | nil => cases found : labelPosition? target after <;> simp [labelPosition?, found]
  | cons instruction before ih =>
      rw [List.cons_append, labelPosition?_cons, ih]
      cases labelPosition? target after with
      | none => rfl
      | some position => simp [Nat.add_right_comm]

theorem labelPosition?_eq_none_iff {target : Label} {code : Code V} :
    code.labelPosition? target = none ↔ code.Undefined target := by
  induction code with
  | nil => simp [labelPosition?, Undefined]
  | cons instruction rest ih =>
      rw [labelPosition?_cons]
      cases found : labelPosition? target rest with
      | none =>
          have undefinedAfter := ih.mp found
          cases here : instruction.defines target <;> simp_all [Undefined]
      | some position =>
          have definedAfter : ¬ Undefined rest target := by
            intro undefinedAfter
            simp [ih.mpr undefinedAfter] at found
          simp_all [Undefined]

/-- Code around a definition does not hide it, if the code after it does not define the label. -/
theorem labelPosition?_middle {target : Label} {middle after : Code V} {position : Nat}
    (found : middle.labelPosition? target = some position) (absent : after.Undefined target)
    (before : Code V) :
    (before ++ middle ++ after).labelPosition? target = some (before.length + position) := by
  rw [labelPosition?_append, labelPosition?_eq_none_iff.mpr absent, labelPosition?_append, found]

theorem getElem?_middle {middle : Code V} {position : Nat} {instruction : Instruction V}
    (found : middle[position]? = some instruction) (before after : Code V) :
    (before ++ middle ++ after)[before.length + position]? = some instruction := by
  have inside := (List.getElem?_eq_some_iff.mp found).1
  rw [List.append_assoc, List.getElem?_append_right (Nat.le_add_right _ _),
    Nat.add_sub_cancel_left, List.getElem?_append_left inside, found]

/-- A jump never continues elsewhere than at a definition of its label. -/
theorem getElem?_of_labelPosition? {target : Label} {code : Code V} {position : Nat}
    (found : code.labelPosition? target = some position) :
    code[position]? = some (.label target) := by
  induction code generalizing position with
  | nil => cases found
  | cons instruction rest ih =>
      rw [labelPosition?_cons] at found
      split at found
      · next later laterFound =>
        cases found
        simpa using ih laterFound
      · split at found
        · next here =>
          cases found
          simp [Instruction.defines_iff.mp here]
        · cases found

theorem exists_labelPosition?_iff {target : Label} {code : Code V} :
    (∃ position, code.labelPosition? target = some position) ↔ .label target ∈ code := by
  constructor
  · rintro ⟨position, found⟩
    exact List.mem_of_getElem? (getElem?_of_labelPosition? found)
  · intro member
    cases found : code.labelPosition? target with
    | some position => exact ⟨position, rfl⟩
    | none =>
        have hidden := labelPosition?_eq_none_iff.mp found _ member
        rw [Instruction.defines_iff.mpr rfl] at hidden
        cases hidden

theorem labelPosition?_lt {target : Label} {code : Code V} {position : Nat}
    (found : code.labelPosition? target = some position) : position < code.length :=
  (List.getElem?_eq_some_iff.mp (getElem?_of_labelPosition? found)).1

/-- Codes that define the same labels at the same positions continue jumps alike. -/
theorem labelPosition?_eq_of_defines {target : Label} {first : Code V} {second : Code W}
    (same : first.map (Instruction.defines target) = second.map (Instruction.defines target)) :
    first.labelPosition? target = second.labelPosition? target := by
  induction first generalizing second with
  | nil =>
      cases second with
      | nil => rfl
      | cons instruction rest => cases same
  | cons instruction rest ih =>
      cases second with
      | nil => cases same
      | cons instruction' rest' =>
          obtain ⟨here, later⟩ := List.cons.inj same
          rw [labelPosition?_cons, labelPosition?_cons, ih later, here]

end Code

end LinearIR
