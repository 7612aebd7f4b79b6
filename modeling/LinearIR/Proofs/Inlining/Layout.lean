import LinearIR.Proofs.Inlining.Fragment
import LinearIR.Proofs.LabelPositions

/-!
# Where a callee's code lies in a fragment

Each instruction of the callee becomes one instruction of the fragment, and each return becomes
two. A renamed label is defined last where the label was, whatever code surrounds the fragment,
if the code after it defines no label of it.
-/

set_option autoImplicit false

namespace LinearIR

namespace Code

/-- The position in the renamed code. Every return before it takes one more. -/
def renamedPosition (code : Code Value) (position : Nat) : Nat :=
  position + (code.take position).countP Instruction.isReturn

@[simp]
theorem renamedPosition_zero (code : Code Value) : code.renamedPosition 0 = 0 := rfl

theorem renamedPosition_cons (instruction : Instruction Value) (rest : Code Value)
    (position : Nat) :
    renamedPosition (instruction :: rest) (position + 1) =
      (if instruction.isReturn then 2 else 1) + rest.renamedPosition position := by
  simp only [renamedPosition, List.take_succ_cons, List.countP_cons]
  split <;> omega

theorem renamedPosition_succ {code : Code Value} {position : Nat} {instruction : Instruction Value}
    (found : code[position]? = some instruction) (stays : instruction.isReturn = false) :
    code.renamedPosition (position + 1) = code.renamedPosition position + 1 := by
  simp only [renamedPosition, List.take_add_one, found, Option.toList_some, List.countP_append,
    List.countP_singleton, stays, Bool.false_eq_true, if_false]
  omega

theorem renamedPosition_lt (code : Code Value) {position later : Nat} (before : position < later) :
    code.renamedPosition position < code.renamedPosition later := by
  have fewer : (code.take position).countP Instruction.isReturn ≤
      (code.take later).countP Instruction.isReturn :=
    (List.take_sublist_take_left (Nat.le_of_lt before)).countP_le
  exact Nat.add_lt_add_of_lt_of_le before fewer

end Code

/-- The labels of a callee have images of their own, and none of them is the exit label. -/
structure RenamingTable.LabelsApart (table : RenamingTable) : Prop where
  unique : ∀ first second image, table.labels.get? first = some image →
    table.labels.get? second = some image → first = second
  exit : ∀ old, table.labels.get? old ≠ some table.exitLabel

theorem RenamingTable.Serves.labelsApart {table : RenamingTable} {caller callee after : Scope}
    {receiver : Operand Value} {result? : Option Variable}
    (serves : table.Serves caller callee after receiver result?) : table.LabelsApart :=
  ⟨fun _ _ _ => serves.label_unique, serves.renamed_ne_exitLabel⟩

namespace Instruction

theorem mem_labels_label (name : Label) : name ∈ (label name : Instruction Value).labels := by
  simp [labels, label?]

theorem Renames.defines {table : RenamingTable} {instruction renamed : Instruction Value}
    (renames : Renames table instruction renamed) (apart : table.LabelsApart)
    {old new : Label} (image : table.labels.get? old = some new) :
    renamed.defines new = instruction.defines old := by
  cases renames with
  | @label name name' nameRenamed =>
      have sameName : name' = new ↔ name = old := by
        constructor
        · intro sameImage
          subst sameImage
          exact apart.unique name old name' nameRenamed image
        · intro same
          subst same
          rw [nameRenamed] at image
          exact Option.some.inj image
      by_cases same : name = old
      · simp [Instruction.defines, sameName.mpr same, same]
      · simp [Instruction.defines, mt sameName.mp same, same]
  | copy | getArray | jump | beq | ret => rfl

end Instruction

namespace RenamingTable

variable {table : RenamingTable} {code body : Code Value}

theorem length_renameBody (succeeded : table.renameBody code = .ok body) :
    body.length = code.renamedPosition code.length := by
  induction code generalizing body with
  | nil => cases succeeded; rfl
  | cons instruction rest ih =>
      obtain ⟨renamed, following, -, restRenamed, rfl⟩ := renameBody_cons succeeded
      rw [List.length_cons, List.length_append, ih restRenamed, List.length_cons,
        Code.renamedPosition_cons]
      split <;> simp <;> omega

theorem getElem?_renameBody (succeeded : table.renameBody code = .ok body) {position : Nat}
    {instruction : Instruction Value} (found : code[position]? = some instruction) :
    ∃ renamed, instruction.Renames table renamed ∧
      body[code.renamedPosition position]? = some renamed ∧
      (instruction.isReturn = true →
        body[code.renamedPosition position + 1]? = some (.jump table.exitLabel)) := by
  induction code generalizing body position with
  | nil => cases found
  | cons first rest ih =>
      obtain ⟨renamed, following, renames, restRenamed, rfl⟩ := renameBody_cons succeeded
      cases position with
      | zero =>
          cases found
          exact ⟨renamed, renames, rfl, fun returns => by simp [returns]⟩
      | succ position =>
          obtain ⟨later, laterRenames, laterFound, leaves⟩ := ih restRenamed found
          refine ⟨later, laterRenames, ?_⟩
          rw [Code.renamedPosition_cons]
          split
          · rw [Nat.add_comm 2]
            exact ⟨laterFound, leaves⟩
          · rw [Nat.add_comm 1]
            exact ⟨laterFound, leaves⟩

/-- Renamed code consists of the renamed instructions and of the jumps behind returns. -/
theorem exists_of_getElem?_renameBody (succeeded : table.renameBody code = .ok body)
    {offset : Nat} {emitted : Instruction Value} (found : body[offset]? = some emitted) :
    (∃ position instruction, code[position]? = some instruction ∧
        instruction.Renames table emitted ∧ offset = code.renamedPosition position) ∨
      emitted = .jump table.exitLabel := by
  induction code generalizing body offset with
  | nil => cases succeeded; cases found
  | cons first rest ih =>
      obtain ⟨renamed, following, renames, restRenamed, rfl⟩ := renameBody_cons succeeded
      -- What is found behind the first instruction is found in the rest, or is the jump between.
      have behind : ∀ {later}, following[later]? = some emitted →
          offset = (if first.isReturn then 2 else 1) + later →
          (∃ position instruction, (first :: rest)[position]? = some instruction ∧
            instruction.Renames table emitted ∧
            offset = Code.renamedPosition (first :: rest) position) ∨
          emitted = .jump table.exitLabel := by
        intro later laterFound same
        rcases ih restRenamed laterFound with ⟨position, instruction, here, renames, rfl⟩ | leaves
        · exact .inl ⟨position + 1, instruction, here, renames,
            by rw [Code.renamedPosition_cons, same]⟩
        · exact .inr leaves
      cases offset with
      | zero =>
          cases found
          exact .inl ⟨0, first, rfl, renames, rfl⟩
      | succ offset =>
          rw [List.getElem?_cons_succ] at found
          cases returns : first.isReturn with
          | false =>
              simp only [returns, Bool.false_eq_true, if_false, List.nil_append] at found behind
              exact behind found (Nat.add_comm offset 1)
          | true =>
              simp only [returns, if_true, List.singleton_append] at found behind
              cases offset with
              | zero => cases found; exact .inr rfl
              | succ offset => exact behind found (Nat.add_comm offset 2)

/-- Renamed labels are defined last where the labels were. -/
theorem labelPosition?_renameBody (succeeded : table.renameBody code = .ok body)
    (apart : table.LabelsApart) {old new : Label} (image : table.labels.get? old = some new) :
    body.labelPosition? new = (code.labelPosition? old).map code.renamedPosition := by
  induction code generalizing body with
  | nil => cases succeeded; rfl
  | cons instruction rest ih =>
      obtain ⟨renamed, following, renames, restRenamed, rfl⟩ := renameBody_cons succeeded
      have defines := renames.defines apart image
      have jumpDefines :
          (Instruction.jump table.exitLabel : Instruction Value).defines new = false := rfl
      rw [Code.labelPosition?_cons, Code.labelPosition?_cons, defines]
      cases returns : instruction.isReturn with
      | false =>
          simp only [Bool.false_eq_true, if_false, List.nil_append, ih restRenamed]
          cases Code.labelPosition? old rest with
          | none => cases instruction.defines old <;> rfl
          | some position =>
              simp [Code.renamedPosition_cons, returns, Nat.add_comm]
      | true =>
          simp only [if_true, List.singleton_append, Code.labelPosition?_cons, ih restRenamed,
            jumpDefines]
          cases Code.labelPosition? old rest with
          | none => cases instruction.defines old <;> rfl
          | some position =>
              simp only [Option.map_some, Code.renamedPosition_cons, returns, if_true]
              rw [Nat.add_comm 2]

/-- The renamed code of a callee lies in some code from a base on, followed by the exit. -/
structure Places (table : RenamingTable) (callee whole : Code Value) (base : Nat) : Prop where
  renamed {position : Nat} {instruction : Instruction Value} :
    callee[position]? = some instruction → ∃ renamed, instruction.Renames table renamed ∧
      whole[base + callee.renamedPosition position]? = some renamed
  leave {position : Nat} {instruction : Instruction Value} :
    callee[position]? = some instruction → instruction.isReturn = true →
      whole[base + callee.renamedPosition position + 1]? = some (.jump table.exitLabel)
  exit : whole[base + callee.renamedPosition callee.length]? = some (.label table.exitLabel)
  label {old new : Label} {position : Nat} :
    table.labels.get? old = some new → callee.labelPosition? old = some position →
      whole.labelPosition? new = some (base + callee.renamedPosition position)
  exitLabel : whole.labelPosition? table.exitLabel =
    some (base + callee.renamedPosition callee.length)

theorem places_of_renameBody (succeeded : table.renameBody code = .ok body)
    (apart : table.LabelsApart) (before : Code Value) {after : Code Value}
    (afterApart : ∀ instruction ∈ body ++ [.label table.exitLabel],
      ∀ name ∈ instruction.labels, after.Undefined name) :
    table.Places code (before ++ (body ++ [.label table.exitLabel]) ++ after) before.length := by
  have length := length_renameBody succeeded
  have inBody : ∀ {offset : Nat} {instruction : Instruction Value},
      body[offset]? = some instruction →
        (before ++ (body ++ [.label table.exitLabel]) ++ after)[before.length + offset]? =
          some instruction := by
    intro offset instruction found
    have inside := (List.getElem?_eq_some_iff.mp found).1
    apply Code.getElem?_middle
    rw [List.getElem?_append_left inside, found]
  have exitUndefined : after.Undefined table.exitLabel :=
    afterApart (.label table.exitLabel) (by simp) _ (Instruction.mem_labels_label _)
  constructor
  case renamed =>
    intro position instruction found
    obtain ⟨renamed, renames, renamedFound, -⟩ := getElem?_renameBody succeeded found
    exact ⟨renamed, renames, inBody renamedFound⟩
  case leave =>
    intro position instruction found returns
    obtain ⟨-, -, -, leaves⟩ := getElem?_renameBody succeeded found
    exact inBody (leaves returns)
  case exit =>
    apply Code.getElem?_middle
    rw [← length, List.getElem?_append_right (Nat.le_refl _), Nat.sub_self]
    rfl
  case label =>
    intro old new position image found
    have renamedFound : body.labelPosition? new = some (code.renamedPosition position) := by
      rw [labelPosition?_renameBody succeeded apart image, found, Option.map_some]
    have member := List.mem_of_getElem? (Code.getElem?_of_labelPosition? renamedFound)
    have exitDiffers : table.exitLabel ≠ new := by
      intro same
      exact apart.exit old (same ▸ image)
    apply Code.labelPosition?_middle
    · simp [Code.labelPosition?_append, Code.labelPosition?, Instruction.defines, exitDiffers,
        renamedFound]
    · exact afterApart (.label new) (List.mem_append_left _ member) new
        (Instruction.mem_labels_label new)
  case exitLabel =>
    apply Code.labelPosition?_middle
    · simp [Code.labelPosition?_append, Code.labelPosition?, Instruction.defines, length]
    · exact exitUndefined

end RenamingTable

end LinearIR
