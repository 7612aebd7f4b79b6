import LinearIR.Proofs.Folding.Soundness
import LinearIR.Proofs.Inlining.Fragment

/-!
# Names in folded code

Folding moves operands between instructions and makes no name up. What holds of every name in a
code holds of every name in its narrowed and in its live instructions.
-/

set_option autoImplicit false

namespace LinearIR

variable {varKind : Variable → Prop} {labelKind : Label → Prop}

namespace Operand

theorem within_constant (value : Value) : (constant value).Within varKind labelKind where
  vars := nofun
  labels := nofun

theorem Within.extract {operand part : Operand Value} (within : operand.Within varKind labelKind)
    {index : Nat} {takeRest : Bool} (extracted : operand.extract index takeRest = .ok part) :
    part.Within varKind labelKind := by
  cases operand with
  | array elements =>
      rw [within_array_iff] at within
      cases extracted
      cases takeRest with
      | true => exact within_array_iff.mpr fun element member =>
          within element (List.mem_of_mem_drop member)
      | false =>
          cases found : elements[index]? with
          | none => simpa [found] using within_constant .nil
          | some element => simpa [found] using within element (List.mem_of_getElem? found)
  | constant value =>
      unfold Operand.extract at extracted
      dsimp only at extracted
      split at extracted
      · cases extracted
        exact within_constant _
      · cases extracted
  | var | label | self => cases extracted

end Operand

/-- Every operand that a variable is known to be has names of certain kinds only. -/
def Known.Within (known : Known) (varKind : Variable → Prop) (labelKind : Label → Prop) : Prop :=
  ∀ name operand, known.get? name = some operand → operand.Within varKind labelKind

theorem Known.within_empty : Known.Within ∅ varKind labelKind := by
  intro name operand bound
  cases bound

theorem Operand.Within.resolve {known : Known} (knownWithin : known.Within varKind labelKind)
    {operand : Operand Value} (within : operand.Within varKind labelKind) :
    (operand.resolve known).Within varKind labelKind := by
  induction operand using Operand.induction with
  | var name =>
      simp only [Operand.resolve]
      cases bound : known.get? name with
      | none => exact within
      | some operand => exact knownWithin name operand bound
  | constant value => exact within
  | array elements ih =>
      rw [within_array_iff] at within
      simp only [Operand.resolve, resolveAll_eq_map, within_array_iff, List.mem_map]
      rintro _ ⟨element, member, rfl⟩
      exact ih element member (within element member)
  | label name => exact within
  | self => exact within

namespace Instruction

variable {instruction : Instruction Value}

theorem Within.operand (within : instruction.Within varKind labelKind) {operand : Operand Value}
    (member : operand ∈ instruction.operands) : operand.Within varKind labelKind where
  vars := fun name occurs => within.vars name (mem_vars_iff.mpr (.inr ⟨operand, member, occurs⟩))
  labels := fun name occurs =>
    within.labels name (mem_labels_iff.mpr (.inr ⟨operand, member, occurs⟩))

theorem Within.mapOperands (within : instruction.Within varKind labelKind)
    {replace : Operand Value → Operand Value}
    (keeps : ∀ operand ∈ instruction.operands, (replace operand).Within varKind labelKind) :
    (instruction.mapOperands replace).Within varKind labelKind := by
  refine within_of_parts ?_ ?_ ?_
  · rw [operands_mapOperands]
    exact List.forall_mem_map.mpr keeps
  · rw [result?_mapOperands]
    intro name written
    exact within.vars name (mem_vars_iff.mpr (.inl written))
  · rw [label?_mapOperands]
    intro name own
    exact within.labels name (mem_labels_iff.mpr (.inl own))

/-- The operand that settles an instruction is taken from the instruction's own operands. -/
theorem within_settled
    (within : ∀ operand ∈ instruction.operands, operand.Within varKind labelKind)
    {operand : Operand Value} (settled : instruction.settled? = some operand) :
    operand.Within varKind labelKind := by
  cases instruction with
  | copy result source =>
      cases settled
      exact within operand List.mem_cons_self
  | getArray result array index takeRest =>
      exact (within array List.mem_cons_self).extract (settled?_getArray_eq_some_iff.mp settled)
  | label | jump | beq | ret => cases settled

theorem within_operands_narrow {known : Known}
    (within : ∀ operand ∈ instruction.operands, operand.Within varKind labelKind)
    (knownWithin : known.Within varKind labelKind) :
    ∀ operand ∈ (instruction.narrow known).instruction.operands,
      operand.Within varKind labelKind := by
  rw [narrow, operands_mapOperands]
  exact List.forall_mem_map.mpr fun operand member => (within operand member).resolve knownWithin

theorem Within.narrow (within : instruction.Within varKind labelKind) {known : Known}
    (knownWithin : known.Within varKind labelKind) :
    (instruction.narrow known).instruction.Within varKind labelKind :=
  within.mapOperands fun _ member => (within.operand member).resolve knownWithin

end Instruction

namespace Known

variable {known : Known}

theorem Within.enter (within : known.Within varKind labelKind) (options : FoldOptions)
    (instruction : Instruction Value) :
    (known.enter options instruction).Within varKind labelKind := by
  unfold Known.enter
  split
  · exact within_empty
  · exact within

theorem Within.leave (within : known.Within varKind labelKind) {narrowed : Narrowed}
    (resultWithin : ∀ operand ∈ narrowed.result?, operand.Within varKind labelKind) :
    (known.leave narrowed).Within varKind labelKind := by
  intro name operand bound
  obtain ⟨-, fact | ⟨before, -⟩⟩ := get?_leave_eq_some_iff.mp bound
  · exact resultWithin operand (Narrowed.fact?_eq_some_iff.mp fact).2.1
  · exact within name operand before

theorem Within.after (within : known.Within varKind labelKind) (options : FoldOptions)
    {instruction : Instruction Value}
    (operandsWithin : ∀ operand ∈ instruction.operands, operand.Within varKind labelKind) :
    (known.after options instruction).Within varKind labelKind := by
  have entered := within.enter options instruction
  refine entered.leave fun operand settled => ?_
  exact Instruction.within_settled (Instruction.within_operands_narrow operandsWithin entered)
    settled

end Known

namespace Code

variable {code : Code Value}

/-- What is known comes from the instructions passed, so what an instruction is narrowed by has
names of the kinds that occur in operands of the code. -/
theorem exists_of_mem_narrowFrom {known : Known} (knownWithin : known.Within varKind labelKind)
    (options : FoldOptions)
    (within : ∀ instruction ∈ code, ∀ operand ∈ instruction.operands,
      operand.Within varKind labelKind) :
    ∀ narrowed ∈ code.narrowFrom known options, ∃ instruction ∈ code, ∃ before : Known,
      before.Within varKind labelKind ∧ narrowed = instruction.narrow before := by
  induction code generalizing known with
  | nil => nofun
  | cons first rest ih =>
      obtain ⟨firstWithin, restWithin⟩ := List.forall_mem_cons.mp within
      refine List.forall_mem_cons.mpr ⟨?_, fun narrowed member => ?_⟩
      · exact ⟨first, List.mem_cons_self, _, knownWithin.enter options first, rfl⟩
      · obtain ⟨instruction, member, before, beforeWithin, same⟩ :=
          ih (knownWithin.after options firstWithin) restWithin narrowed member
        exact ⟨instruction, List.mem_cons_of_mem _ member, before, beforeWithin, same⟩

theorem within_operands_fold (options : FoldOptions)
    (within : ∀ instruction ∈ code, ∀ operand ∈ instruction.operands,
      operand.Within varKind labelKind) :
    ∀ instruction ∈ (code.fold options).instructions, ∀ operand ∈ instruction.operands,
      operand.Within varKind labelKind := by
  refine List.forall_mem_map.mpr fun narrowed narrowedMember => ?_
  obtain ⟨instruction, member, before, beforeWithin, rfl⟩ :=
    exists_of_mem_narrowFrom Known.within_empty options within narrowed narrowedMember
  exact Instruction.within_operands_narrow (within instruction member) beforeWithin

theorem within_fold (options : FoldOptions)
    (within : ∀ instruction ∈ code, instruction.Within varKind labelKind) :
    ∀ instruction ∈ (code.fold options).instructions,
      instruction.Within varKind labelKind := by
  refine List.forall_mem_map.mpr fun narrowed narrowedMember => ?_
  obtain ⟨instruction, member, before, beforeWithin, rfl⟩ :=
    exists_of_mem_narrowFrom Known.within_empty options
      (fun instruction member _ => (within instruction member).operand) narrowed narrowedMember
  exact (within instruction member).narrow beforeWithin

end Code

theorem Folded.mem_of_mem_live {folded : Folded} {instruction : Instruction Value}
    (live : instruction ∈ folded.live) : instruction ∈ folded.instructions := by
  obtain ⟨⟨kept, removable⟩, zipped, same⟩ := List.mem_filterMap.mp live
  dsimp only at same
  split at same <;> cases same
  exact (List.of_mem_zip zipped).1

end LinearIR
