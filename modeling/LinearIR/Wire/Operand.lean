import LinearIR.Operand.Basic
import LinearIR.Wire.Value

/-!
# Wire format of operands

An operand is the number of its form, followed by its contents. A name is its string.
-/

set_option autoImplicit false

namespace LinearIR

open Wire

def Variable.encode (name : Variable) : List UInt8 :=
  encodeString name.name

def Variable.decoder : Decoder Variable :=
  return ⟨← Decoder.string⟩

def Label.encode (name : Label) : List UInt8 :=
  encodeString name.name

def Label.decoder : Decoder Label :=
  return ⟨← Decoder.string⟩

namespace Operand

mutual

def encode : Operand Value → List UInt8
  | .var name => encodeNat 0 ++ name.encode
  | .constant value => encodeNat 1 ++ value.encode
  | .array elements => encodeNat 2 ++ encodeNat elements.length ++ encodeAll elements
  | .label name => encodeNat 3 ++ name.encode
  | .self => encodeNat 4

def encodeAll : List (Operand Value) → List UInt8
  | [] => []
  | first :: rest => encode first ++ encodeAll rest

end

def decoderWithin : Nat → Decoder (Operand Value)
  | 0 => failure
  | depth + 1 => do
    match ← Decoder.nat32 with
    | 0 => return .var (← Variable.decoder)
    | 1 => return .constant (← Value.decoder)
    | 2 => return .array (← Decoder.sequence (decoderWithin depth))
    | 3 => return .label (← Label.decoder)
    | 4 => return .self
    | _ => failure

/-- Reads an operand. Every level of nesting takes a byte, so the input bounds the depth. -/
def decoder : Decoder (Operand Value) := fun input =>
  decoderWithin input.length input

end Operand

end LinearIR
