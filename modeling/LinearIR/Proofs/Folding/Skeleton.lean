import LinearIR.Proofs.Folding.Names
import LinearIR.Proofs.Folding.Removal

/-!
# The skeleton of folded code

Folding replaces operands and drops instructions. What an instruction does beside reading its
operands stays, the operands have no names that were not among the operands before, and the
jumps that remain continue at the labels they continued at before.
-/

set_option autoImplicit false

namespace LinearIR

namespace Instruction

variable {V : Type}

/-- The instructions differ in their operands only. -/
structure SameSkeleton (first second : Instruction V) : Prop where
  operation : first.operation = second.operation
  result : first.result? = second.result?
  label : first.label? = second.label?
  part : first.part? = second.part?

theorem sameSkeleton_mapOperands (replace : Operand V → Operand V) (instruction : Instruction V) :
    instruction.SameSkeleton (instruction.mapOperands replace) where
  operation := (instruction.operation_mapOperands replace).symm
  result := (instruction.result?_mapOperands replace).symm
  label := (instruction.label?_mapOperands replace).symm
  part := (instruction.part?_mapOperands replace).symm

end Instruction

namespace Folded

theorem length_unmarked (instructions : List (Instruction Value × Bool)) :
    (unmarked instructions).length = (instructions.map Prod.snd).count false := by
  induction instructions with
  | nil => rfl
  | cons entry rest ih =>
      obtain ⟨instruction, removable⟩ := entry
      cases removable <;> simp [unmarked_cons, ih]

end Folded

namespace Code

/-- The labels that operands of the code name, from left to right and with repeats. -/
def operandLabels {V : Type} (code : Code V) : List Label :=
  code.flatMap fun instruction => instruction.operands.flatMap Operand.labels

variable {code : Code Value} {options : FoldOptions}

theorem narrowFrom_sameSkeleton (known : Known) (options : FoldOptions) (code : Code Value) :
    List.Forall₂ (fun instruction narrowed => instruction.SameSkeleton narrowed.instruction) code
      (code.narrowFrom known options) := by
  induction code generalizing known with
  | nil => exact .nil
  | cons first rest ih =>
      exact .cons (Instruction.sameSkeleton_mapOperands _ first) (ih (known.after options first))

theorem fold_sameSkeleton (code : Code Value) (options : FoldOptions) :
    List.Forall₂ Instruction.SameSkeleton code (code.fold options).instructions :=
  List.forall₂_map_right_iff.mpr (code.narrowFrom_sameSkeleton ∅ options)

theorem mem_operandLabels_iff {V : Type} {code : Code V} {name : Label} :
    name ∈ code.operandLabels ↔
      ∃ instruction ∈ code, ∃ operand ∈ instruction.operands, name ∈ operand.labels := by
  simp only [operandLabels, List.mem_flatMap]

/-- Every operand of the folded code has only names that operands of the code have. -/
theorem fold_invents_no_names :
    reads (code.fold options).instructions ⊆ code.reads ∧
      operandLabels (code.fold options).instructions ⊆ code.operandLabels := by
  have within : ∀ instruction ∈ code, ∀ operand ∈ instruction.operands,
      operand.Within (· ∈ code.reads) (· ∈ code.operandLabels) := by
    intro instruction member operand operandMember
    constructor
    · intro name occurs
      exact List.mem_flatMap.mpr
        ⟨instruction, member, List.mem_flatMap.mpr ⟨operand, operandMember, occurs⟩⟩
    · intro name occurs
      exact mem_operandLabels_iff.mpr ⟨instruction, member, operand, operandMember, occurs⟩
  have folded := within_operands_fold options within
  constructor
  · intro name read
    obtain ⟨instruction, member, reads⟩ := List.mem_flatMap.mp read
    obtain ⟨operand, operandMember, occurs⟩ := List.mem_flatMap.mp reads
    exact (folded instruction member operand operandMember).vars name occurs
  · intro name named
    obtain ⟨instruction, member, operand, operandMember, occurs⟩ :=
      mem_operandLabels_iff.mp named
    exact (folded instruction member operand operandMember).labels name occurs

theorem fold_removable_at {position : Nat} {instruction : Instruction Value}
    (found : (code.fold options).instructions[position]? = some instruction)
    (removable : (code.fold options).removable[position]? = some true) :
    (instruction.operation = .copy ∨ instruction.operation = .getArray) ∧
      ∃ destination, instruction.result? = some destination ∧
        destination ∉ reads (code.fold options).instructions := by
  have marked : (instruction, true) ∈ (code.fold options).marked :=
    List.mem_of_getElem? (List.getElem?_zip_eq_some.mpr ⟨found, removable⟩)
  obtain ⟨destination, writes, unread⟩ := fold_removable marked
  refine ⟨?_, destination, writes, unread⟩
  cases instruction with
  | copy => exact .inl rfl
  | getArray => exact .inr rfl
  | label | jump | beq | ret => cases writes

theorem livePosition_eq_count (position : Nat) : (code.fold options).livePosition position =
    ((code.fold options).removable.take position).count false := by
  rw [Folded.livePosition, Folded.length_unmarked, List.map_take, Folded.marked,
    List.map_snd_zip length_fold_removable.le]

theorem removable_label {position : Nat} {target : Label}
    (found : code[position]? = some (.label target)) :
    (code.fold options).instructions[position]? = some (.label target) ∧
      (code.fold options).removable[position]? = some false := by
  have narrowed : (code.fold options).instructions[position]? = some (.label target) := by
    rw [getElem?_fold, found]
    rfl
  refine ⟨narrowed, ?_⟩
  obtain ⟨inside, -⟩ := List.getElem?_eq_some_iff.mp narrowed
  obtain ⟨removable, mark⟩ : ∃ removable, (code.fold options).removable[position]? =
      some removable := ⟨_, List.getElem?_eq_getElem (length_fold_removable.symm ▸ inside)⟩
  cases removable with
  | false => exact mark
  | true =>
      obtain ⟨-, destination, writes, -⟩ := fold_removable_at narrowed mark
      cases writes

/-- A kept instruction stands in the live code after the kept instructions before it. -/
theorem getElem?_live_count {position : Nat} {instruction : Instruction Value}
    (found : (code.fold options).instructions[position]? = some instruction)
    (kept : (code.fold options).removable[position]? = some false) :
    (code.fold options).live[((code.fold options).removable.take position).count false]? =
      some instruction := by
  rw [← livePosition_eq_count]
  exact Folded.getElem?_live (List.getElem?_zip_eq_some.mpr ⟨found, kept⟩)

/-- A folded code has the skeleton of the code, position by position, and no new names. What may
be removed writes a variable that is not read, so no label is lost: each jump of the live code
continues at the occurrence of its label where it continued before. -/
theorem fold_keeps_skeleton (code : Code Value) (options : FoldOptions) :
    List.Forall₂ Instruction.SameSkeleton code (code.fold options).instructions ∧
    (reads (code.fold options).instructions ⊆ code.reads ∧
      operandLabels (code.fold options).instructions ⊆ code.operandLabels) ∧
    (∀ (position : Nat) (instruction : Instruction Value),
      (code.fold options).instructions[position]? = some instruction →
      (code.fold options).removable[position]? = some true →
      (instruction.operation = .copy ∨ instruction.operation = .getArray) ∧
        ∃ destination, instruction.result? = some destination ∧
          destination ∉ reads (code.fold options).instructions) ∧
    ∀ target : Label,
      (code.fold options).live.labelPosition? target =
        (code.labelPosition? target).map
          (fun position => ((code.fold options).removable.take position).count false) ∧
      ∀ position, code.labelPosition? target = some position →
        code[position]? = some (.label target) ∧
        (code.fold options).removable[position]? = some false ∧
        (code.fold options).live[((code.fold options).removable.take position).count false]? =
          some (.label target) := by
  refine ⟨code.fold_sameSkeleton options, fold_invents_no_names,
    fun _ _ found => fold_removable_at found, ?_⟩
  intro target
  constructor
  · rw [labelPosition?_live, labelPosition?_fold, ← funext livePosition_eq_count]
  · intro position continues
    have found := getElem?_of_labelPosition? continues
    obtain ⟨narrowed, kept⟩ := removable_label found
    exact ⟨found, kept, getElem?_live_count narrowed kept⟩

end Code

end LinearIR
