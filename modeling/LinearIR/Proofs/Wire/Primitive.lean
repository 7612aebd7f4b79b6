import Mathlib.Algebra.Group.Int.Defs
import Mathlib.Algebra.Group.Nat.Defs
import LinearIR.Wire.Primitive

/-!
# Numbers in bytes

What the bytes of a number say about it, and which bytes are written for it: in base 128, where
many byte strings spell one number, as an integer that is counted in zigzag, and in a fixed number
of bytes.
-/

set_option autoImplicit false

namespace LinearIR.Wire

/-! ## Base 128 -/

/-- The bytes are a number in base 128, the least significant digit first, and the high bit is set
on all but the last. Zeros may lead, so a number has many spellings. -/
inductive Digits : Nat → List UInt8 → Prop where
  | last {byte : UInt8} : byte.toNat < 128 → Digits byte.toNat [byte]
  | more {byte : UInt8} {number : Nat} {bytes : List UInt8} :
      128 ≤ byte.toNat → Digits number bytes →
      Digits (byte.toNat - 128 + 128 * number) (byte :: bytes)

theorem Digits.length_pos {number : Nat} {bytes : List UInt8} (spelled : Digits number bytes) :
    0 < bytes.length := by
  cases spelled <;> exact Nat.succ_pos _

theorem length_digits (more number : Nat) : (digits more number).length ≤ more + 1 := by
  induction more generalizing number with
  | zero => exact Nat.le_refl 1
  | succ more ih =>
      rw [digits]
      split
      · exact Nat.le_add_left 1 (more + 1)
      · exact Nat.succ_le_succ (ih (number / 128))

theorem Digits.of_lt {number : Nat} (small : number < 128) : Digits number [number.toUInt8] := by
  have toByte : number.toUInt8.toNat = number :=
    UInt8.toNat_ofNat_of_lt' (Nat.lt_trans small (by decide))
  have last : Digits number.toUInt8.toNat [number.toUInt8] := .last (by omega)
  rwa [toByte] at last

theorem digits_spell {more number : Nat} (written : number < 128 ^ (more + 1)) :
    Digits number (digits more number) := by
  induction more generalizing number with
  | zero => exact .of_lt written
  | succ more ih =>
      rw [digits]
      split
      · next small => exact .of_lt small
      · next large =>
        have fits : number % 128 + 128 < 256 := by omega
        have toByte : (number % 128 + 128).toUInt8.toNat = number % 128 + 128 :=
          UInt8.toNat_ofNat_of_lt' fits
        have upperWritten : number / 128 < 128 ^ (more + 1) := by
          rw [Nat.div_lt_iff_lt_mul (by decide), ← Nat.pow_succ]
          exact written
        have spelled : Digits ((number % 128 + 128).toUInt8.toNat - 128 + 128 * (number / 128))
            ((number % 128 + 128).toUInt8 :: digits more (number / 128)) :=
          .more (by omega) (ih upperWritten)
        rwa [toByte, Nat.add_sub_cancel, Nat.mod_add_div] at spelled

theorem Digits.shortest_of_lt {number : Nat} {taken : List UInt8} (spelled : Digits number taken)
    (small : number < 128) (sameLength : [number.toUInt8].length = taken.length) :
    [number.toUInt8] = taken := by
  cases spelled with
  | last => rw [Nat.toUInt8, UInt8.ofNat_toNat]
  | more _ spelled =>
      have := spelled.length_pos
      rw [List.length_singleton, List.length_cons] at sameLength
      omega

/-- Without leading zeros a number is shortest, because every byte holds as much as it can. -/
theorem Digits.shortest {number : Nat} {taken : List UInt8} (spelled : Digits number taken)
    {more : Nat} (written : number < 128 ^ (more + 1)) :
    (digits more number).length ≤ taken.length ∧
      ((digits more number).length = taken.length → digits more number = taken) := by
  induction more generalizing number taken with
  | zero => exact ⟨spelled.length_pos, spelled.shortest_of_lt written⟩
  | succ more ih =>
      rw [digits]
      split
      · next small => exact ⟨spelled.length_pos, spelled.shortest_of_lt small⟩
      · next large =>
        cases spelled with
        | last final => omega
        | @more byte upper bytes continued spelled =>
            have byteBelow := byte.toNat_lt
            have lowerDigit : (byte.toNat - 128 + 128 * upper) % 128 = byte.toNat - 128 := by omega
            have upperDigits : (byte.toNat - 128 + 128 * upper) / 128 = upper := by omega
            have sameByte : (byte.toNat - 128 + 128).toUInt8 = byte := by
              rw [Nat.sub_add_cancel continued, Nat.toUInt8, UInt8.ofNat_toNat]
            have upperWritten : upper < 128 ^ (more + 1) := by
              rw [Nat.pow_succ] at written
              omega
            obtain ⟨shorter, same⟩ := ih spelled upperWritten
            rw [lowerDigit, upperDigits, sameByte]
            refine ⟨Nat.succ_le_succ shorter, fun sameLength => ?_⟩
            rw [same (Nat.succ.inj sameLength)]

/-- How many bytes are written depends on the number alone. -/
theorem length_encodeNat_le {number more : Nat} (small : number < 128 ^ (more + 1))
    (written : number < 128 ^ 10) : (encodeNat number).length ≤ more + 1 :=
  Nat.le_trans ((digits_spell small).shortest written).1 (length_digits more number)

/-! ## Zigzag -/

theorem unzigzag_zigzag (number : Int) : unzigzag (zigzag number) = number := by
  unfold unzigzag zigzag
  simp only [Int.ofNat_eq_natCast]
  split <;> split <;> omega

theorem zigzag_lt {number : Int} (above : -2 ^ 63 ≤ number) (below : number < 2 ^ 63) :
    zigzag number < 2 ^ 64 := by
  unfold zigzag
  split <;> omega

theorem zigzag_unzigzag (number : Nat) : zigzag (unzigzag number) = number := by
  unfold unzigzag zigzag
  simp only [Int.ofNat_eq_natCast]
  split <;> split <;> omega

theorem unzigzag_bounds {number : Nat} (below : number < 2 ^ 64) :
    -2 ^ 63 ≤ unzigzag number ∧ unzigzag number < 2 ^ 63 := by
  unfold unzigzag
  simp only [Int.ofNat_eq_natCast]
  split <;> omega

/-- A number of 64 bits stands for an integer of 64 bits. -/
theorem toInt_ofInt_unzigzag {number : Nat} (below : number < 2 ^ 64) :
    (Int64.ofInt (unzigzag number)).toInt = unzigzag number :=
  Int64.toInt_ofInt_of_le (unzigzag_bounds below).1 (unzigzag_bounds below).2

/-! ## Little endian -/

theorem length_littleEndian (count number : Nat) : (littleEndian count number).length = count := by
  induction count generalizing number with
  | zero => rfl
  | succ count ih => rw [littleEndian, List.length_cons, ih]

theorem ofLittleEndian_littleEndian {count number : Nat} (fits : number < 256 ^ count) :
    ofLittleEndian (littleEndian count number) = number := by
  induction count generalizing number with
  | zero => exact (Nat.lt_one_iff.mp fits).symm
  | succ count ih =>
      have quotientFits : number / 256 < 256 ^ count := by
        rw [Nat.div_lt_iff_lt_mul (by decide), ← Nat.pow_succ]
        exact fits
      have digit : (number % 256).toUInt8.toNat = number % 256 :=
        UInt8.toNat_ofNat_of_lt' (Nat.mod_lt number (by decide))
      rw [littleEndian, ofLittleEndian, ih quotientFits, digit, Nat.mod_add_div]

theorem ofLittleEndian_lt (bytes : List UInt8) : ofLittleEndian bytes < 256 ^ bytes.length := by
  induction bytes with
  | nil => decide
  | cons first rest ih =>
      have := first.toNat_lt
      rw [ofLittleEndian, List.length_cons, Nat.pow_succ]
      omega

theorem littleEndian_ofLittleEndian (bytes : List UInt8) :
    littleEndian bytes.length (ofLittleEndian bytes) = bytes := by
  induction bytes with
  | nil => rfl
  | cons first rest ih =>
      have below := first.toNat_lt
      have lower : (first.toNat + 256 * ofLittleEndian rest) % 256 = first.toNat := by omega
      have upper : (first.toNat + 256 * ofLittleEndian rest) / 256 = ofLittleEndian rest := by
        omega
      rw [ofLittleEndian, List.length_cons, littleEndian, lower, upper, ih, Nat.toUInt8,
        UInt8.ofNat_toNat]

/-! ## Text -/

theorem fromUTF8?_eq_some_iff {bytes : List UInt8} {string : String} :
    String.fromUTF8? ⟨bytes.toArray⟩ = some string ↔ string.toUTF8.data.toList = bytes := by
  unfold String.fromUTF8?
  constructor
  · intro read
    split at read
    · cases read
      rfl
    · cases read
  · intro written
    subst written
    exact dif_pos string.isValidUTF8

end LinearIR.Wire
