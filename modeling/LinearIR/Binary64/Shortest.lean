import LinearIR.Binary64.Basic

/-!
# Shortest decimal text of a double-precision number

The text of a finite number is a positional decimal that lies in the number's rounding
interval, taken on the coarsest power-of-ten grid that has a point there. The number itself is
such a point on the finest grid, so the search always succeeds.

Everything is counted in whole units of `10 ^ (-1074)`: a multiple of `2 ^ (-1074)` times
`5 ^ 1074` is a whole number of those units.
-/

set_option autoImplicit false

namespace LinearIR.Binary64

def decimalPlaces : Nat := 1074

/-- A magnitude in multiples of `2 ^ (-1074)`: subnormal magnitudes are their fraction, all
others have an implied leading one. -/
def binaryUnits (magnitude : Nat) : Nat :=
  let exponent := magnitude / 0x10000000000000
  let fraction := magnitude % 0x10000000000000
  if exponent = 0 then fraction else (0x10000000000000 + fraction) * Nat.pow 2 (exponent - 1)

def decimalUnits (magnitude : Nat) : Nat :=
  binaryUnits magnitude * Nat.pow 5 decimalPlaces

/-- Whether a decimal rounds to the magnitude: it lies between the midpoints to the two
neighbours, which belong to the interval of an even fraction. -/
def roundsTo (magnitude decimal : Nat) : Bool :=
  let lower := decimalUnits (magnitude - 1) + decimalUnits magnitude
  let upper := decimalUnits magnitude + decimalUnits (magnitude + 1)
  if magnitude % 2 = 0 then
    decide (lower ≤ 2 * decimal) && decide (2 * decimal ≤ upper)
  else
    decide (lower < 2 * decimal) && decide (2 * decimal < upper)

/-- The multiple of `spacing` that rounds to the magnitude and is nearest to it. Of two equally
near multiples the larger is taken. -/
def nearestOnGrid? (magnitude spacing : Nat) : Option Nat :=
  let exact := decimalUnits magnitude
  let below := exact / spacing * spacing
  let above := below + spacing
  match roundsTo magnitude below, roundsTo magnitude above with
  | true, true => some (if exact - below < above - exact then below else above)
  | true, false => some below
  | false, true => some above
  | false, false => none

/-- Searches the grids of spacing `10 ^ level` and finer, down to single units. -/
def shortestFrom (magnitude : Nat) : Nat → Nat
  | 0 => decimalUnits magnitude
  | level + 1 =>
    match nearestOnGrid? magnitude (Nat.pow 10 (level + 1)) with
    | some decimal => decimal
    | none => shortestFrom magnitude level

/-- A level whose spacing exceeds the given number of units: three binary digits hold less than
one decimal digit. -/
def coarsestLevel (units : Nat) : Nat :=
  units.log2 / 3 + 1

def shortest (magnitude : Nat) : Nat :=
  shortestFrom magnitude (coarsestLevel (decimalUnits (magnitude + 1)))

/-- The digits after the point: trailing zeros are left out, but one digit always remains. -/
def fractionDigits (fraction : Nat) : List Char :=
  let padded := (Nat.toDigits 10 fraction).leftpad decimalPlaces '0'
  match (padded.reverse.dropWhile (· == '0')).reverse with
  | [] => ['0']
  | digits => digits

def positional (decimal : Nat) : List Char :=
  let unit := Nat.pow 10 decimalPlaces
  Nat.toDigits 10 (decimal / unit) ++ '.' :: fractionDigits (decimal % unit)

/-- Every NaN has the same text, and the sign of zero is kept. -/
def textChars (x : Binary64) : List Char :=
  if x.isNaN then "NaN".toList
  else
    let unsigned := if x.isInfinite then "Infinity".toList else positional (shortest x.magnitude)
    if x.isNegative then '-' :: unsigned else unsigned

end LinearIR.Binary64
