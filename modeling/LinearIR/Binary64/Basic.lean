/-!
# Double-precision numbers by their bits

A number is its 64-bit pattern: one sign bit, eleven exponent bits, fifty-two fraction bits.
Patterns are compared by decidable equality; `Binary64.equals` is comparison of the numbers
they stand for.
-/

set_option autoImplicit false

namespace LinearIR

structure Binary64 where
  bits : UInt64
  deriving DecidableEq, Inhabited

namespace Binary64

/-- The pattern without its sign bit. Finite magnitudes grow with this number. -/
def magnitude (x : Binary64) : Nat :=
  x.bits.toNat % 0x8000000000000000

def isNegative (x : Binary64) : Bool :=
  decide (0x8000000000000000 ≤ x.bits.toNat)

/-- All exponent bits are set, and no bit of the fraction. -/
def infiniteMagnitude : Nat :=
  0x7ff0000000000000

def isNaN (x : Binary64) : Bool :=
  decide (infiniteMagnitude < x.magnitude)

def isInfinite (x : Binary64) : Bool :=
  x.magnitude == infiniteMagnitude

def isZero (x : Binary64) : Bool :=
  x.magnitude == 0

/-- Numeric comparison: nothing equals a NaN, the two zeros are equal, and any other number
equals only itself. -/
def equals (x y : Binary64) : Bool :=
  !x.isNaN && !y.isNaN && (x == y || (x.isZero && y.isZero))

end Binary64

end LinearIR
