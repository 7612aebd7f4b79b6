import Mathlib.Order.Monotone.Basic
import LinearIR.Binary64.Shortest

/-!
# The numbers that patterns stand for

A pattern that is no NaN stands for a signed multiple of a smallest unit, and larger magnitudes
stand for larger numbers. Only the two zeros are different patterns of one number, so comparison of
patterns is comparison of numbers.
-/

set_option autoImplicit false

namespace LinearIR.Binary64

/-! ## Magnitudes -/

theorem binaryUnits_lt_succ (magnitude : Nat) :
    binaryUnits magnitude < binaryUnits (magnitude + 1) := by
  unfold binaryUnits
  dsimp only
  -- The fraction grows by one, or it starts again at zero and the exponent grows by one.
  by_cases carries : magnitude % 0x10000000000000 + 1 = 0x10000000000000
  · have exponent : (magnitude + 1) / 0x10000000000000 = magnitude / 0x10000000000000 + 1 := by
      omega
    have fraction : (magnitude + 1) % 0x10000000000000 = 0 := by omega
    rw [exponent, fraction, if_neg (Nat.succ_ne_zero _), Nat.add_sub_cancel]
    cases magnitude / 0x10000000000000 with
    | zero => simp; omega
    | succ exponent =>
        have positive : 0 < 2 ^ exponent := Nat.two_pow_pos exponent
        simp only [Nat.pow_eq, if_neg (Nat.succ_ne_zero _), Nat.add_sub_cancel, Nat.pow_succ,
          Nat.add_zero]
        rw [Nat.mul_comm (2 ^ exponent), ← Nat.mul_assoc]
        exact Nat.mul_lt_mul_of_pos_right (by omega) positive
  · have exponent : (magnitude + 1) / 0x10000000000000 = magnitude / 0x10000000000000 := by omega
    have fraction : (magnitude + 1) % 0x10000000000000 = magnitude % 0x10000000000000 + 1 := by
      omega
    rw [exponent, fraction]
    split
    · exact Nat.lt_succ_self _
    · exact Nat.mul_lt_mul_of_pos_right (by omega) (Nat.two_pow_pos _)

theorem strictMono_binaryUnits : StrictMono binaryUnits :=
  strictMono_nat_of_lt_succ binaryUnits_lt_succ

theorem binaryUnits_eq_zero_iff {magnitude : Nat} :
    binaryUnits magnitude = 0 ↔ magnitude = 0 :=
  strictMono_binaryUnits.injective.eq_iff' rfl

theorem eq_of_magnitude {x y : Binary64} (sameSign : x.isNegative = y.isNegative)
    (same : x.magnitude = y.magnitude) : x = y := by
  have bound := x.bits.toNat_lt
  have bound' := y.bits.toNat_lt
  simp only [isNegative, decide_eq_decide] at sameSign
  simp only [magnitude] at same
  have sameBits : x.bits = y.bits := UInt64.toNat.inj (by omega)
  cases x
  cases y
  exact congrArg Binary64.mk sameBits

/-! ## Zeros -/

/-- The number without the sign that a zero may have. -/
def plainZero (x : Binary64) : Binary64 :=
  if x.isZero then ⟨0⟩ else x

theorem isZero_plainZero (x : Binary64) : x.plainZero.isZero = x.isZero := by
  unfold plainZero
  split
  · next zero => rw [zero]; rfl
  · rfl

theorem isNaN_plainZero (x : Binary64) : x.plainZero.isNaN = x.isNaN := by
  unfold plainZero
  split
  · next zero =>
    have none : x.magnitude = 0 := by simpa [isZero] using zero
    have number : x.isNaN = false := by simp [isNaN, none]
    rw [number]
    rfl
  · rfl

theorem plainZero_eq_iff {x y : Binary64} :
    x.plainZero = y.plainZero ↔ x = y ∨ x.isZero = true ∧ y.isZero = true := by
  constructor
  · intro same
    have bothZero : x.isZero = y.isZero := by
      rw [← isZero_plainZero x, ← isZero_plainZero y, same]
    unfold plainZero at same
    cases zero : x.isZero with
    | true => exact .inr ⟨rfl, bothZero ▸ zero⟩
    | false =>
        rw [if_neg (by simp [zero]), if_neg (by simp [← bothZero, zero])] at same
        exact .inl same
  · intro alike
    rcases alike with same | ⟨xZero, yZero⟩
    · rw [same]
    · rw [plainZero, if_pos xZero, plainZero, if_pos yZero]

theorem equals_iff {x y : Binary64} :
    x.equals y = true ↔ x.isNaN = false ∧ x.plainZero = y.plainZero := by
  have sameNaN (same : x.plainZero = y.plainZero) : y.isNaN = x.isNaN := by
    rw [← isNaN_plainZero x, ← isNaN_plainZero y, same]
  constructor
  · intro equal
    simp only [equals, Bool.and_eq_true, Bool.not_eq_true', Bool.or_eq_true, beq_iff_eq] at equal
    exact ⟨equal.1.1, plainZero_eq_iff.mpr equal.2⟩
  · intro alike
    simp only [equals, Bool.and_eq_true, Bool.not_eq_true', Bool.or_eq_true, beq_iff_eq]
    exact ⟨⟨alike.1, (sameNaN alike.2).trans alike.1⟩, plainZero_eq_iff.mp alike.2⟩

/-! ## Numbers -/

/-- The number in multiples of `2 ^ (-1074)`. An infinity is taken for the number that would follow
the finite ones. -/
def units (x : Binary64) : Int :=
  if x.isNegative then -(binaryUnits x.magnitude) else binaryUnits x.magnitude

theorem units_of_isZero {x : Binary64} (zero : x.isZero = true) : x.units = 0 := by
  have none : binaryUnits x.magnitude = 0 := binaryUnits_eq_zero_iff.mpr (beq_iff_eq.mp zero)
  simp [units, none]

theorem units_eq_iff {x y : Binary64} :
    x.units = y.units ↔ x = y ∨ x.isZero = true ∧ y.isZero = true := by
  constructor
  · intro same
    unfold units at same
    by_cases sameSign : x.isNegative = y.isNegative
    · have sameUnits : binaryUnits x.magnitude = binaryUnits y.magnitude := by
        rw [sameSign] at same
        split at same <;> omega
      exact .inl (eq_of_magnitude sameSign (strictMono_binaryUnits.injective sameUnits))
    · -- Only zero is a number of both signs.
      have none : binaryUnits x.magnitude = 0 ∧ binaryUnits y.magnitude = 0 := by
        rw [Bool.eq_not_of_ne (Ne.symm sameSign)] at same
        cases sign : x.isNegative <;>
          simp only [sign, Bool.not_false, Bool.not_true, Bool.false_eq_true, if_true,
            if_false] at same <;>
          omega
      exact .inr ⟨beq_iff_eq.mpr (binaryUnits_eq_zero_iff.mp none.1),
        beq_iff_eq.mpr (binaryUnits_eq_zero_iff.mp none.2)⟩
  · intro alike
    rcases alike with same | ⟨zero, zero'⟩
    · rw [same]
    · rw [units_of_isZero zero, units_of_isZero zero']

/-- Two patterns compare equal if and only if they stand for numbers, and for the same one. -/
theorem equals_iff_units {x y : Binary64} :
    x.equals y = true ↔ x.isNaN = false ∧ y.isNaN = false ∧ x.units = y.units := by
  rw [units_eq_iff]
  simp [equals, and_assoc]

end LinearIR.Binary64
