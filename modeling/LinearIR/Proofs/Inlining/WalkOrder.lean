import LinearIR.Proofs.Inlining.Fragment
import LinearIR.Proofs.Leaves

/-!
# The order of renaming

Renaming walks the names of an instruction: the destination, the leaves of the operands, the own
label. It fails at the first name without an entry, and if there is none, it replaces every name by
its entry and every receiver by the receiver of the call.
-/

set_option autoImplicit false

namespace LinearIR

namespace RenamingTable

/-- The error at a leaf that names something without an entry. -/
def missing? (table : RenamingTable) : Operand Value → Option InlineError
  | .var name => if table.vars.contains name then none else some (.missingVariable name)
  | .label name => if table.labels.contains name then none else some (.missingLabel name)
  | .constant _ | .array _ | .self => none

def imageOfVariable (table : RenamingTable) (name : Variable) : Variable :=
  (table.vars.get? name).getD name

def imageOfLabel (table : RenamingTable) (name : Label) : Label :=
  (table.labels.get? name).getD name

/-- What a leaf is replaced by, if it has no missing name. -/
def image (table : RenamingTable) : Operand Value → Operand Value
  | .var name => .var (table.imageOfVariable name)
  | .label name => .label (table.imageOfLabel name)
  | .self => table.receiver
  | .constant value => .constant value
  | .array elements => .array elements

variable (table : RenamingTable)

theorem renameVariable_passes (name : Variable) :
    Except.Passes table.missing? [.var name] (table.imageOfVariable name)
      (table.renameVariable name) := by
  unfold Except.Passes renameVariable imageOfVariable
  cases bound : table.vars.get? name <;> simp [missing?, Bindings.contains, bound]

theorem renameLabel_passes (name : Label) :
    Except.Passes table.missing? [.label name] (table.imageOfLabel name)
      (table.renameLabel name) := by
  unfold Except.Passes renameLabel imageOfLabel
  cases bound : table.labels.get? name <;> simp [missing?, Bindings.contains, bound]

end RenamingTable

theorem Operand.rename_passes (table : RenamingTable) (operand : Operand Value) :
    Except.Passes table.missing? operand.leaves (operand.mapLeaves table.image)
      (operand.rename table) := by
  induction operand using Operand.induction with
  | var name => exact (table.renameVariable_passes name).bind (.pure _)
  | constant value => rfl
  | array elements ih =>
      rw [leaves, mapLeaves, rename, listLeaves_eq_flatMap, listMapLeaves_eq_map,
        renameAll_eq_mapM, ← List.append_nil (elements.flatMap leaves)]
      exact (Except.Passes.mapM ih).bind (.pure _)
  | label name => exact (table.renameLabel_passes name).bind (.pure _)
  | self => rfl

namespace Instruction

section

variable {V : Type}

def leaves (instruction : Instruction V) : List (Operand V) :=
  instruction.operands.flatMap Operand.leaves

/-- The names of an instruction in the order in which they are renamed, together with the other
leaves of its operands. -/
def walk (instruction : Instruction V) : List (Operand V) :=
  instruction.result?.toList.map .var ++ instruction.leaves ++
    instruction.label?.toList.map .label

theorem vars_eq_flatMap_walk (instruction : Instruction V) :
    instruction.vars = instruction.walk.flatMap Operand.vars := by
  cases instruction <;>
    simp [vars, reads, walk, leaves, result?, label?, operands, Operand.vars,
      ← Operand.vars_eq_flatMap_leaves]

theorem labels_eq_flatMap_leaves (instruction : Instruction V) :
    instruction.labels =
      (instruction.label?.toList.map Operand.label ++ instruction.leaves).flatMap
        Operand.labels := by
  cases instruction <;>
    simp [labels, leaves, label?, operands, Operand.labels, ← Operand.labels_eq_flatMap_leaves]

end

/-- The instruction with every name replaced by its entry. A return becomes a copy. -/
def relocate (table : RenamingTable) : Instruction Value → Instruction Value
  | .copy result source => .copy (table.imageOfVariable result) (source.mapLeaves table.image)
  | .getArray result array index takeRest =>
    .getArray (table.imageOfVariable result) (array.mapLeaves table.image) index takeRest
  | .label name => .label (table.imageOfLabel name)
  | .jump target => .jump (table.imageOfLabel target)
  | .beq first second target =>
    .beq (first.mapLeaves table.image) (second.mapLeaves table.image) (table.imageOfLabel target)
  | .ret value => .copy table.callResult (value.mapLeaves table.image)

theorem rename_passes (table : RenamingTable) (instruction : Instruction Value) :
    Except.Passes table.missing? instruction.walk (instruction.relocate table)
      (instruction.rename table) := by
  -- In each case the order of the walk is that of the binds in the renaming.
  cases instruction with
  | copy result source =>
      have order : (copy result source).walk = [.var result] ++ (source.leaves ++ []) := by
        simp [walk, leaves, operands, result?, label?]
      rw [order]
      exact (table.renameVariable_passes result).bind ((source.rename_passes table).bind (.pure _))
  | getArray result array index takeRest =>
      have order : (getArray result array index takeRest).walk =
          [.var result] ++ (array.leaves ++ []) := by
        simp [walk, leaves, operands, result?, label?]
      rw [order]
      exact (table.renameVariable_passes result).bind ((array.rename_passes table).bind (.pure _))
  | label name => exact (table.renameLabel_passes name).bind (.pure _)
  | jump target => exact (table.renameLabel_passes target).bind (.pure _)
  | beq first second target =>
      have order : (beq first second target).walk =
          first.leaves ++ (second.leaves ++ ([.label target] ++ [])) := by
        simp [walk, leaves, operands, result?, label?]
      rw [order]
      exact (first.rename_passes table).bind ((second.rename_passes table).bind
        ((table.renameLabel_passes target).bind (.pure _)))
  | ret value =>
      have order : (ret value).walk = value.leaves ++ [] := by
        simp [walk, leaves, operands, result?, label?]
      rw [order]
      exact (value.rename_passes table).bind (.pure _)

/-- How an instruction comes out of renaming. Its shape is kept, and its names are the images of
the leaves in the order of the original. -/
structure Relocates (table : RenamingTable) (instruction renamed : Instruction Value) : Prop where
  entries : ∀ leaf ∈ instruction.walk, table.missing? leaf = none
  operation : renamed.operation = if instruction.isReturn then .copy else instruction.operation
  part : renamed.part? = instruction.part?
  result : renamed.result? =
    if instruction.isReturn then some table.callResult
    else instruction.result?.map table.imageOfVariable
  label : renamed.label? = instruction.label?.map table.imageOfLabel
  operands : renamed.operands = instruction.operands.map (Operand.mapLeaves table.image)
  vars : renamed.vars = (if instruction.isReturn then [table.callResult] else []) ++
    instruction.walk.flatMap fun leaf => (table.image leaf).vars
  labels : renamed.labels =
    (instruction.label?.toList.map Operand.label ++ instruction.leaves).flatMap
      fun leaf => (table.image leaf).labels

theorem relocates_relocate {table : RenamingTable} {instruction : Instruction Value}
    (entries : ∀ leaf ∈ instruction.walk, table.missing? leaf = none) :
    Relocates table instruction (instruction.relocate table) where
  entries := entries
  operation := by cases instruction <;> rfl
  part := by cases instruction <;> rfl
  result := by cases instruction <;> rfl
  label := by cases instruction <;> rfl
  operands := by cases instruction <;> rfl
  vars := by
    cases instruction <;>
      simp [relocate, vars, reads, walk, leaves, result?, label?, isReturn, operands,
        RenamingTable.image, Operand.vars, Operand.vars_mapLeaves]
  labels := by
    cases instruction <;>
      simp [relocate, labels, leaves, label?, operands, RenamingTable.image, Operand.labels,
        Operand.labels_mapLeaves]

/-- Renaming passes the names in the order of the walk. It fails if and only if one of them has no
entry, with the error of the first such name, and otherwise all names become their images in
place. -/
theorem rename_in_walk_order (table : RenamingTable) (instruction : Instruction Value) :
    ((∃ error, instruction.rename table = .error error) ↔
      ∃ leaf ∈ instruction.walk, (table.missing? leaf).isSome) ∧
    (∀ error, instruction.rename table = .error error ↔
      ∃ before leaf after, instruction.walk = before ++ leaf :: after ∧
        table.missing? leaf = some error ∧ ∀ earlier ∈ before, table.missing? earlier = none) ∧
    (∀ renamed, instruction.rename table = .ok renamed →
      Relocates table instruction renamed) ∧
    instruction.vars = instruction.walk.flatMap Operand.vars ∧
    instruction.labels =
      (instruction.label?.toList.map Operand.label ++ instruction.leaves).flatMap
        Operand.labels := by
  have passes := instruction.rename_passes table
  refine ⟨?_, fun _ => passes.eq_error_iff, ?_, instruction.vars_eq_flatMap_walk,
    instruction.labels_eq_flatMap_leaves⟩
  · constructor
    · intro failed
      obtain ⟨error, failed⟩ := failed
      obtain ⟨before, leaf, after, order, missing, -⟩ := passes.eq_error_iff.mp failed
      refine ⟨leaf, ?_, by rw [missing]; rfl⟩
      rw [order]
      exact List.mem_append_right before List.mem_cons_self
    · intro missing
      obtain ⟨leaf, member, missing⟩ := missing
      cases computed : instruction.rename table with
      | error error => exact ⟨error, rfl⟩
      | ok renamed =>
          rw [(passes.eq_ok_iff.mp computed).1 leaf member] at missing
          cases missing
  · intro renamed succeeded
    obtain ⟨entries, rfl⟩ := passes.eq_ok_iff.mp succeeded
    exact relocates_relocate entries

-- The label that the operand names first is missed before the label of the branch.
example : (beq (.array [.label ⟨"inner"⟩, .var ⟨"x"⟩]) .self ⟨"target"⟩).rename
    (.ofCall .self ⟨"result"⟩ ⟨"exit"⟩) = .error (.missingLabel ⟨"inner"⟩) := rfl

end Instruction

end LinearIR
