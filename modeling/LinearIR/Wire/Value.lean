import LinearIR.Value.Basic
import LinearIR.Wire.Primitive

/-!
# Wire format of values

A value is the number of its kind, followed by its contents. An array is the count of its
elements and the elements; nothing is written about how it was made.
-/

set_option autoImplicit false

namespace LinearIR

open Wire

def Scalar.encode : Scalar → List UInt8
  | .nil => encodeNat 0
  | .bool value => encodeNat 1 ++ encodeBool value
  | .fixnum value => encodeNat 2 ++ encodeInt64 value
  | .float value => encodeNat 3 ++ encodeBits value.bits
  | .str value => encodeNat 4 ++ encodeString value

namespace Value

mutual

def encode : Value → List UInt8
  | .scalar value => value.encode
  | .array elements => encodeNat 5 ++ encodeNat elements.length ++ encodeAll elements

def encodeAll : List Value → List UInt8
  | [] => []
  | first :: rest => encode first ++ encodeAll rest

end

/-- The elements with their count, but without the kind of a value. -/
def encodeElements (elements : List Value) : List UInt8 :=
  encodeNat elements.length ++ encodeAll elements

/-- Reads a value in which arrays are nested at most `depth` deep. -/
def decoderWithin : Nat → Decoder Value
  | 0 => failure
  | depth + 1 => do
    match ← Decoder.nat32 with
    | 0 => return .scalar .nil
    | 1 => return .scalar (.bool (← Decoder.bool))
    | 2 => return .scalar (.fixnum (← Decoder.int64))
    | 3 => return .scalar (.float ⟨← Decoder.bits⟩)
    | 4 => return .scalar (.str (← Decoder.string))
    | 5 => return .array (← Decoder.sequence (decoderWithin depth))
    | _ => failure

/-- Reads a value. Every level of nesting takes a byte, so the input bounds the depth. -/
def decoder : Decoder Value := fun input =>
  decoderWithin input.length input

end Value

end LinearIR
