import LinearIR.Execution.Context
import LinearIR.Value.Like

/-!
# Executing one instruction

Operands are evaluated from left to right, and the first fault ends the instruction before it
has written anything.
-/

set_option autoImplicit false

namespace LinearIR

/-- A computation that changes a context and may fault. The changes made before a fault stay. -/
abbrev Execution (γ V : Type) := ExceptT (Fault V) (StateM γ)

variable {γ V : Type} [ExecutionContext γ V]

namespace Operand

mutual

/-- The value of an operand. A literal builds a new array each time. -/
def evaluate (receiver : V) : Operand V → Execution γ V V
  | .var name => do
    match ← ExecutionContext.load (γ := γ) name with
    | some value => return value
    | none => throw (.unboundVariable name)
  | .constant value => return value
  | .array elements => do
    let values ← evaluateAll receiver elements
    ExecutionContext.buildArray (γ := γ) values
  | .label name => throw (.labelAsValue name)
  | .self => return receiver

def evaluateAll (receiver : V) : List (Operand V) → Execution γ V (List V)
  | [] => return []
  | first :: rest => do
    let value ← evaluate receiver first
    return value :: (← evaluateAll receiver rest)

end

end Operand

/-- Executes an instruction. The result is the label to continue at, or nothing if control goes
on to the next instruction. -/
def Instruction.execute [ValueLike V] (receiver : V) :
    Instruction V → Execution γ V (Option Label)
  | .copy result source => do
    let value ← source.evaluate receiver
    ExecutionContext.store (γ := γ) result value
    return none
  | .getArray result array index takeRest => do
    let value ← array.evaluate receiver
    match ValueLike.extract? value index.toNat takeRest with
    | some part =>
      ExecutionContext.store (γ := γ) result part
      return none
    | none => throw (.notAnArray array (toValue value).kind)
  | .label _ => return none
  | .jump target => return some target
  | .beq first second target => do
    let firstValue ← first.evaluate receiver
    let secondValue ← second.evaluate receiver
    return if (toValue firstValue).equals (toValue secondValue) then some target else none
  | .ret value => do
    let value ← value.evaluate receiver
    ExecutionContext.setReturn (γ := γ) value
    return none

end LinearIR
