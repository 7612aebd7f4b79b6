import LinearIR.Instruction.Basic
import LinearIR.Operand.Text

/-!
# Text of instructions

An instruction that writes a variable is an assignment followed by its operation in parentheses.
The others are a call of their operation, and a label is its name with a colon.
-/

set_option autoImplicit false

namespace LinearIR.Instruction

def text (instruction : Instruction Value) : String :=
  let operation := instruction.operation.name
  match instruction with
  | .copy result source => result.name ++ " = " ++ source.text ++ " (" ++ operation ++ ")"
  | .getArray result array index takeRest =>
    let part := toString index ++ if takeRest then ":END" else ""
    result.name ++ " = " ++ array.text ++ "[" ++ part ++ "] (" ++ operation ++ ")"
  | .label name => name.name ++ ":"
  | .jump target => operation ++ "(" ++ target.name ++ ")"
  | .beq first second target =>
    operation ++ "(" ++ first.text ++ ", " ++ second.text ++ ", " ++ target.name ++ ")"
  | .ret value => operation ++ "(" ++ value.text ++ ")"

end LinearIR.Instruction
