/-!
# Wire format of primitives

Bytes are written and read in order. A decoder takes its part from the front of the input and
leaves the rest; it fails on input that is malformed or ends early. Numbers are written in base
128, the least significant digit first, with the high bit set on all bytes but the last. Reading
grants leading zeros, up to the most bytes that a number of the width may need.
-/

set_option autoImplicit false

namespace LinearIR.Wire

abbrev Decoder := StateT (List UInt8) Option

def digits : Nat → Nat → List UInt8
  | 0, number => [number.toUInt8]
  | more + 1, number =>
    if number < 128 then [number.toUInt8]
    else (number % 128 + 128).toUInt8 :: digits more (number / 128)

/-- The shortest form of a number below `2 ^ 64`, which takes ten bytes at most. -/
def encodeNat (number : Nat) : List UInt8 :=
  digits 9 number

def encodeByteString (bytes : List UInt8) : List UInt8 :=
  encodeNat bytes.length ++ bytes

/-- A string is its length in bytes and its UTF-8 bytes. -/
def encodeString (string : String) : List UInt8 :=
  encodeByteString string.toUTF8.data.toList

def encodeBool (value : Bool) : List UInt8 :=
  [if value then 1 else 0]

/-- The natural number that stands for an integer: 0, -1, 1, -2 and so on are counted up. -/
def zigzag (number : Int) : Nat :=
  if 0 ≤ number then 2 * number.toNat else 2 * (-number).toNat - 1

def unzigzag (number : Nat) : Int :=
  if number % 2 = 0 then Int.ofNat (number / 2) else -Int.ofNat (number / 2 + 1)

def encodeInt64 (number : Int64) : List UInt8 :=
  encodeNat (zigzag number.toInt)

/-- The given number of bytes of a number, the least significant first. -/
def littleEndian : Nat → Nat → List UInt8
  | 0, _ => []
  | count + 1, number => (number % 256).toUInt8 :: littleEndian count (number / 256)

def ofLittleEndian : List UInt8 → Nat
  | [] => 0
  | first :: rest => first.toNat + 256 * ofLittleEndian rest

def encodeBits (bits : UInt64) : List UInt8 :=
  littleEndian 8 bits.toNat

namespace Decoder

def byte : Decoder UInt8
  | [] => none
  | first :: rest => some (first, rest)

/-- Reads one element after another. The first failure ends the reading, however many elements
are still due. -/
def repeated {α : Type} (element : Decoder α) : Nat → Decoder (List α)
  | 0 => return []
  | count + 1 => do
    let first ← element
    return first :: (← repeated element count)

def digits : Nat → Decoder Nat
  | 0 => failure
  | more + 1 => do
    let first ← byte
    if first < 128 then return first.toNat
    else return first.toNat - 128 + 128 * (← digits more)

def bounded (count bound : Nat) : Decoder Nat := do
  let number ← digits count
  if number < bound then return number else failure

def nat32 : Decoder Nat :=
  bounded 5 0x100000000

def nat64 : Decoder Nat :=
  bounded 10 0x10000000000000000

def bool : Decoder Bool := do
  match (← byte).toNat with
  | 0 => return false
  | 1 => return true
  | _ => failure

def int64 : Decoder Int64 :=
  return Int64.ofInt (unzigzag (← nat64))

def bits : Decoder UInt64 :=
  return (ofLittleEndian (← repeated byte 8)).toUInt64

def sequence {α : Type} (element : Decoder α) : Decoder (List α) := do
  repeated element (← nat64)

def string : Decoder String := do
  match String.fromUTF8? ⟨(← sequence byte).toArray⟩ with
  | some string => return string
  | none => failure

end Decoder

end LinearIR.Wire
