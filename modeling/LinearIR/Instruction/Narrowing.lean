import LinearIR.Instruction.Basic
import LinearIR.Known

/-!
# Narrowing instructions

Narrowing replaces the known variables among an instruction's operands. Where that settles what
the instruction writes, the written operand is found as well.
-/

set_option autoImplicit false

namespace LinearIR

structure Narrowed where
  instruction : Instruction Value
  /-- The operand whose value the instruction writes, if it is settled before the code runs. -/
  result? : Option (Operand Value)
  deriving DecidableEq

namespace Instruction

/-- The operand whose value the instruction writes, if its own operands settle it. -/
def settled? : Instruction Value → Option (Operand Value)
  | .copy _ source => some source
  | .getArray _ array index takeRest => (array.extract index.toNat takeRest).toOption
  | .label _ | .jump _ | .beq .. | .ret _ => none

theorem settled?_getArray_eq_some_iff {result : Variable} {array part : Operand Value}
    {index : UInt64} {takeRest : Bool} :
    (getArray result array index takeRest).settled? = some part ↔
      array.extract index.toNat takeRest = .ok part := by
  rw [settled?]
  cases array.extract index.toNat takeRest <;> simp [Except.toOption]

def narrow (instruction : Instruction Value) (known : Known) : Narrowed :=
  let narrowed := instruction.mapOperands (Operand.resolve known)
  { instruction := narrowed, result? := narrowed.settled? }

end Instruction

/-- What is known once the instruction has run: its destination is the operand it writes. An
operand that reads the destination itself would be about the value before, so it tells
nothing. -/
def Narrowed.fact? (narrowed : Narrowed) : Option (Variable × Operand Value) :=
  match narrowed.instruction.result?, narrowed.result? with
  | some destination, some operand =>
    if operand.mentions destination then none else some (destination, operand)
  | _, _ => none

end LinearIR
