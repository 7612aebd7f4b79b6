import LinearIR.Operand.Basic

/-!
# Instructions

The six kinds of instructions, and what each of them reads, writes and names. Code is a list of
instructions that control enters at the front.
-/

set_option autoImplicit false

namespace LinearIR

inductive Instruction (V : Type) where
  | copy (result : Variable) (source : Operand V)
  /-- Writes an element of an array or, with `takeRest`, the array of all elements from the
  index on. -/
  | getArray (result : Variable) (array : Operand V) (index : UInt64) (takeRest : Bool)
  | label (name : Label)
  | jump (target : Label)
  | beq (first second : Operand V) (target : Label)
  | ret (value : Operand V)
  deriving DecidableEq, Inhabited

abbrev Code (V : Type) := List (Instruction V)

inductive Operation where
  | copy
  | getArray
  | label
  | jump
  | beq
  | ret
  deriving DecidableEq

namespace Operation

def name : Operation → String
  | .copy => "COPY"
  | .getArray => "GET_ARRAY"
  | .label => "LABEL"
  | .jump => "JUMP"
  | .beq => "BEQ"
  | .ret => "RETURN"

/-- Whether control may continue elsewhere than at the next instruction. -/
def transfersControl : Operation → Bool
  | .jump | .beq | .ret => true
  | .copy | .getArray | .label => false

end Operation

namespace Instruction

variable {V : Type}

def operation : Instruction V → Operation
  | .copy .. => .copy
  | .getArray .. => .getArray
  | .label _ => .label
  | .jump _ => .jump
  | .beq .. => .beq
  | .ret _ => .ret

def transfersControl (instruction : Instruction V) : Bool :=
  instruction.operation.transfersControl

def isLabel : Instruction V → Bool
  | .label _ => true
  | _ => false

def isReturn : Instruction V → Bool
  | .ret _ => true
  | _ => false

def result? : Instruction V → Option Variable
  | .copy result _ | .getArray result .. => some result
  | .label _ | .jump _ | .beq .. | .ret _ => none

def operands : Instruction V → List (Operand V)
  | .copy _ source => [source]
  | .getArray _ array _ _ => [array]
  | .label _ | .jump _ => []
  | .beq first second _ => [first, second]
  | .ret value => [value]

def label? : Instruction V → Option Label
  | .label name => some name
  | .jump target | .beq _ _ target => some target
  | .copy .. | .getArray .. | .ret _ => none

/-- The part of its array that an extraction takes: an index, and whether it takes the rest. -/
def part? : Instruction V → Option (UInt64 × Bool)
  | .getArray _ _ index takeRest => some (index, takeRest)
  | .copy .. | .label _ | .jump _ | .beq .. | .ret _ => none

def reads (instruction : Instruction V) : List Variable :=
  instruction.operands.flatMap Operand.vars

def vars (instruction : Instruction V) : List Variable :=
  instruction.result?.toList ++ instruction.reads

theorem isLabel_of_result? {instruction : Instruction V} {name : Variable}
    (writes : instruction.result? = some name) : instruction.isLabel = false := by
  cases instruction with
  | copy | getArray => rfl
  | label | jump | beq | ret => cases writes

theorem transfersControl_of_result? {instruction : Instruction V} {name : Variable}
    (writes : instruction.result? = some name) : instruction.transfersControl = false := by
  cases instruction with
  | copy | getArray => rfl
  | label | jump | beq | ret => cases writes

/-- The label the instruction defines or may jump to, followed by those its operands name. -/
def labels (instruction : Instruction V) : List Label :=
  instruction.label?.toList ++ instruction.operands.flatMap Operand.labels

theorem mem_vars_iff {instruction : Instruction V} {name : Variable} :
    name ∈ instruction.vars ↔
      name ∈ instruction.result? ∨ ∃ operand ∈ instruction.operands, name ∈ operand.vars := by
  simp [vars, reads]

theorem mem_labels_iff {instruction : Instruction V} {name : Label} :
    name ∈ instruction.labels ↔
      name ∈ instruction.label? ∨ ∃ operand ∈ instruction.operands, name ∈ operand.labels := by
  simp [labels]

def mapOperands {W : Type} (replace : Operand V → Operand W) : Instruction V → Instruction W
  | .copy result source => .copy result (replace source)
  | .getArray result array index takeRest => .getArray result (replace array) index takeRest
  | .label name => .label name
  | .jump target => .jump target
  | .beq first second target => .beq (replace first) (replace second) target
  | .ret value => .ret (replace value)

section

variable {W : Type} (replace : Operand V → Operand W) (instruction : Instruction V)

@[simp]
theorem operation_mapOperands :
    (instruction.mapOperands replace).operation = instruction.operation := by
  cases instruction <;> rfl

@[simp]
theorem isLabel_mapOperands : (instruction.mapOperands replace).isLabel = instruction.isLabel := by
  cases instruction <;> rfl

@[simp]
theorem isReturn_mapOperands :
    (instruction.mapOperands replace).isReturn = instruction.isReturn := by
  cases instruction <;> rfl

@[simp]
theorem result?_mapOperands : (instruction.mapOperands replace).result? = instruction.result? := by
  cases instruction <;> rfl

@[simp]
theorem label?_mapOperands : (instruction.mapOperands replace).label? = instruction.label? := by
  cases instruction <;> rfl

@[simp]
theorem part?_mapOperands : (instruction.mapOperands replace).part? = instruction.part? := by
  cases instruction <;> rfl

@[simp]
theorem operands_mapOperands :
    (instruction.mapOperands replace).operands = instruction.operands.map replace := by
  cases instruction <;> rfl

end

/-- Comparison of instructions, in which operands compare as `Operand.equals` does. -/
def equals : Instruction Value → Instruction Value → Bool
  | .copy result source, .copy result' source' => result == result' && source.equals source'
  | .getArray result array index takeRest, .getArray result' array' index' takeRest' =>
    result == result' && array.equals array' && index == index' && takeRest == takeRest'
  | .label name, .label name' => name == name'
  | .jump target, .jump target' => target == target'
  | .beq first second target, .beq first' second' target' =>
    first.equals first' && second.equals second' && target == target'
  | .ret value, .ret value' => value.equals value'
  | _, _ => false

end Instruction

end LinearIR
