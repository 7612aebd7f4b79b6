import LinearIR.Instruction.Basic
import LinearIR.Wire.Operand

/-!
# Wire format of instructions

An instruction is the number of its operation, followed by its fields in order. Code is the
count of its instructions and the instructions.
-/

set_option autoImplicit false

namespace LinearIR

open Wire

namespace Operation

def number : Operation → Nat
  | .copy => 0
  | .getArray => 1
  | .label => 2
  | .jump => 3
  | .beq => 4
  | .ret => 5

def encode (operation : Operation) : List UInt8 :=
  encodeNat operation.number

def decoder : Decoder Operation := do
  match ← Decoder.nat32 with
  | 0 => return .copy
  | 1 => return .getArray
  | 2 => return .label
  | 3 => return .jump
  | 4 => return .beq
  | 5 => return .ret
  | _ => failure

end Operation

namespace Instruction

def encodeFields : Instruction Value → List UInt8
  | .copy result source => result.encode ++ source.encode
  | .getArray result array index takeRest =>
    result.encode ++ array.encode ++ encodeNat index.toNat ++ encodeBool takeRest
  | .label name => name.encode
  | .jump target => target.encode
  | .beq first second target => first.encode ++ second.encode ++ target.encode
  | .ret value => value.encode

def encode (instruction : Instruction Value) : List UInt8 :=
  instruction.operation.encode ++ instruction.encodeFields

def fieldsDecoder : Operation → Decoder (Instruction Value)
  | .copy => return .copy (← Variable.decoder) (← Operand.decoder)
  | .getArray =>
    return .getArray (← Variable.decoder) (← Operand.decoder) (← Decoder.nat64).toUInt64
      (← Decoder.bool)
  | .label => return .label (← Label.decoder)
  | .jump => return .jump (← Label.decoder)
  | .beq => return .beq (← Operand.decoder) (← Operand.decoder) (← Label.decoder)
  | .ret => return .ret (← Operand.decoder)

def decoder : Decoder (Instruction Value) := do
  fieldsDecoder (← Operation.decoder)

end Instruction

namespace Code

def encode (code : Code Value) : List UInt8 :=
  encodeNat code.length ++ code.flatMap Instruction.encode

def decoder : Decoder (Code Value) :=
  Decoder.sequence Instruction.decoder

end Code

end LinearIR
