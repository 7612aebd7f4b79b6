import LinearIR.Proofs.Comparison.PlainZeros
import LinearIR.Proofs.Wire.RoundTrip
import LinearIR.SharedArray.Values

/-!
# Comparison is a partial equivalence

Floats are compared as the numbers they stand for. So comparison is symmetric and transitive, and
what does not equal itself contains a NaN. What is equal is written alike, up to the signs of zeros.
Arrays are compared by the elements they show, wherever in a storage these lie.
-/

set_option autoImplicit false

namespace LinearIR

open Wire

/-! ## Bytes that differ in the signs of zeros -/

namespace Wire

/-- Bytes that are the same but for encoded zeros among them, which may have either sign. -/
inductive SameButZeroSigns : List UInt8 → List UInt8 → Prop where
  | same {bytes} : SameButZeroSigns bytes bytes
  | zeros {x y : Binary64} : x.isZero = true → y.isZero = true →
      SameButZeroSigns (Scalar.encode (.float x)) (Scalar.encode (.float y))
  | append {front front' back back'} : SameButZeroSigns front front' →
      SameButZeroSigns back back' → SameButZeroSigns (front ++ back) (front' ++ back')

theorem SameButZeroSigns.flatMap {α : Type} {encode : α → List UInt8} {related : α → α → Prop}
    {elements others : List α} (pairs : List.Forall₂ related elements others)
    (alike : ∀ element ∈ elements, ∀ other, related element other →
      SameButZeroSigns (encode element) (encode other)) :
    SameButZeroSigns (elements.flatMap encode) (others.flatMap encode) := by
  induction pairs with
  | nil => exact .same
  | cons first _ ih =>
      obtain ⟨head, tail⟩ := List.forall_mem_cons.mp alike
      exact (head _ first).append (ih tail)

end Wire

theorem Scalar.encode_alike {first second : Scalar} (equal : first.equals second = true) :
    SameButZeroSigns first.encode second.encode := by
  obtain ⟨-, samePlain⟩ := equals_iff.mp equal
  cases first with
  | float x =>
      cases second with
      | float y =>
          rcases Binary64.plainZero_eq_iff.mp (Scalar.float.inj samePlain) with same | zero
          · rw [same]
            exact .same
          · exact .zeros zero.1 zero.2
      | nil | bool | fixnum | str => cases samePlain
  | nil | bool | fixnum | str =>
      cases second <;> cases samePlain
      exact .same

namespace Value

theorem encodeElements_alike {elements others : List Value}
    (equal : allEqual elements others = true)
    (alike : ∀ element ∈ elements, ∀ other, element.equals other = true →
      SameButZeroSigns element.encode other.encode) :
    SameButZeroSigns (encodeElements elements) (encodeElements others) := by
  have pairs := allEqual_iff.mp equal
  rw [encodeElements, encodeElements, encodeAll_eq_flatMap, encodeAll_eq_flatMap,
    pairs.length_eq]
  exact .append .same (.flatMap pairs alike)

theorem encode_array (elements : List Value) :
    (array elements).encode = encodeNat 5 ++ encodeElements elements := by
  rw [encode, encodeElements, List.append_assoc]

theorem encode_alike {first second : Value} (equal : first.equals second = true) :
    SameButZeroSigns first.encode second.encode := by
  induction first using Value.induction generalizing second with
  | scalar value =>
      cases second with
      | scalar other => exact Scalar.encode_alike (by simpa [equals] using equal)
      | array others => simp [equals] at equal
  | array elements ih =>
      cases second with
      | scalar other => simp [equals] at equal
      | array others =>
          rw [encode_array, encode_array]
          exact .append .same (encodeElements_alike equal fun element member _ =>
            ih element member)

end Value

namespace Operand

theorem encode_alike {first second : Operand Value} (equal : first.equals second = true) :
    SameButZeroSigns first.encode second.encode := by
  induction first using Operand.induction generalizing second with
  | var | label =>
      cases second <;> simp [equals] at equal
      rw [equal]
      exact .same
  | self =>
      cases second <;> simp [equals] at equal
      exact .same
  | constant value =>
      cases second <;> simp [equals] at equal
      exact .append .same (Value.encode_alike equal)
  | array elements ih =>
      cases second with
      | array others =>
          have pairs := allEqual_iff.mp equal
          rw [encode, encode, encodeAll_eq_flatMap, encodeAll_eq_flatMap, pairs.length_eq]
          exact .append .same (.flatMap pairs fun element member _ => ih element member)
      | var | constant | label | self => simp [equals] at equal

end Operand

theorem Instruction.encode_alike {first second : Instruction Value}
    (equal : first.equals second = true) : SameButZeroSigns first.encode second.encode := by
  cases first <;> cases second <;>
    simp only [equals, Bool.and_eq_true, beq_iff_eq, Bool.false_eq_true] at equal
  case copy.copy =>
    obtain ⟨rfl, source⟩ := equal
    exact .append .same (.append .same (Operand.encode_alike source))
  case getArray.getArray =>
    obtain ⟨⟨⟨rfl, array⟩, rfl⟩, rfl⟩ := equal
    exact .append .same
      (.append (.append (.append .same (Operand.encode_alike array)) .same) .same)
  case label.label | jump.jump =>
    rw [equal]
    exact .same
  case beq.beq =>
    obtain ⟨⟨first, second⟩, rfl⟩ := equal
    have fields := SameButZeroSigns.append (Operand.encode_alike first)
      (Operand.encode_alike second)
    exact .append .same (.append fields .same)
  case ret.ret => exact .append .same (Operand.encode_alike equal)

/-! ## The laws -/

/-- Equal are those without NaNs that are the same once all zeros are positive, and no others. -/
def ComparesNumbers {α : Type} (equals : α → α → Bool) (floats : α → List Binary64)
    (plainZeros : α → α) : Prop :=
  ∀ first second, equals first second = true ↔
    (∀ x ∈ floats first, x.isNaN = false) ∧ plainZeros first = plainZeros second

/-- The laws of a comparison of data in which floats occur. Only a NaN keeps anything from being
equal to itself. -/
structure LawfulComparison {α : Type} (equals : α → α → Bool) (floats : α → List Binary64)
    (encode : α → List UInt8) : Prop where
  symm : ∀ first second, equals first second = true → equals second first = true
  trans : ∀ first second third, equals first second = true → equals second third = true →
    equals first third = true
  self_iff : ∀ element, equals element element = true ↔ ∀ x ∈ floats element, x.isNaN = false
  encode : ∀ first second, equals first second = true →
    SameButZeroSigns (encode first) (encode second)

namespace LawfulComparison

variable {α β : Type} {equals : α → α → Bool} {floats : α → List Binary64}
  {encode : α → List UInt8}

theorem of_compares {plainZeros : α → α}
    (compares : ComparesNumbers equals floats plainZeros)
    (floats_plainZeros : ∀ element,
      floats (plainZeros element) = (floats element).map Binary64.plainZero)
    (encode_alike : ∀ first second, equals first second = true →
      SameButZeroSigns (encode first) (encode second)) :
    LawfulComparison equals floats encode := by
  have noNaN_iff (element : α) : (∀ x ∈ floats (plainZeros element), x.isNaN = false) ↔
      ∀ x ∈ floats element, x.isNaN = false := by
    rw [floats_plainZeros, List.forall_mem_map]
    simp only [Binary64.isNaN_plainZero]
  constructor
  · intro first second equal
    obtain ⟨noNaN, same⟩ := (compares first second).mp equal
    rw [← noNaN_iff, same, noNaN_iff] at noNaN
    exact (compares second first).mpr ⟨noNaN, same.symm⟩
  · intro first second third equal equal'
    obtain ⟨noNaN, same⟩ := (compares first second).mp equal
    obtain ⟨-, same'⟩ := (compares second third).mp equal'
    exact (compares first third).mpr ⟨noNaN, same.trans same'⟩
  · intro element
    rw [compares, and_iff_left rfl]
  · exact encode_alike

/-- Data that is compared through a view of it is compared lawfully. -/
theorem comap (lawful : LawfulComparison equals floats encode) (view : β → α) :
    LawfulComparison (fun first second => equals (view first) (view second))
      (fun element => floats (view element)) (fun element => encode (view element)) where
  symm _ _ := lawful.symm _ _
  trans _ _ _ := lawful.trans _ _ _
  self_iff _ := lawful.self_iff _
  encode _ _ := lawful.encode _ _

end LawfulComparison

/-! ## Arrays -/

namespace SharedArray

theorem equals_iff {first second : SharedArray Value} :
    first.equals second = true ↔
      List.Forall₂ (fun element other => element.equals other = true) first.toList
        second.toList :=
  Value.allEqual_iff

theorem encode_alike {first second : SharedArray Value} (equal : first.equals second = true) :
    SameButZeroSigns (Value.encodeElements first.toList) (Value.encodeElements second.toList) :=
  Value.encodeElements_alike equal fun _ _ _ => Value.encode_alike

theorem lawfulComparison (values : LawfulComparison Value.equals Value.floats Value.encode) :
    LawfulComparison equals (fun array => array.toList.flatMap Value.floats)
      (fun array => Value.encodeElements array.toList) where
  symm _ _ := values.symm (.array _) (.array _)
  trans _ _ _ := values.trans (.array _) (.array _) (.array _)
  self_iff array := by
    have shown := values.self_iff (.array array.toList)
    rwa [Value.floats, Value.listFloats_eq_flatMap] at shown
  encode _ _ := encode_alike

end SharedArray

namespace SharedValue

/-- Branches compare shared values by what these stand for, so by the elements shown at each
depth. -/
theorem equals_array_iff {first second : SharedArray SharedValue} :
    (toValue (array first)).equals (toValue (array second)) = true ↔
      List.Forall₂ (fun element other => (toValue element).equals (toValue other) = true)
        first.toList second.toList := by
  have shown (elements : SharedArray SharedValue) :
      toValue (array elements) = .array (elements.toList.map toValue) := value_array elements
  rw [shown, shown, Value.equals, Value.allEqual_iff, List.forall₂_map_left_iff,
    List.forall₂_map_right_iff]

theorem lawfulComparison (values : LawfulComparison Value.equals Value.floats Value.encode) :
    LawfulComparison (fun first second : SharedValue => (toValue first).equals (toValue second))
      (fun shared => (toValue shared).floats) encode := by
  rw [funext encode_eq]
  exact values.comap toValue

end SharedValue

/-- Floats are compared as the numbers they stand for, and by that all comparisons are lawful: those
of values, operands and instructions, and those of arrays and of values that know their storage,
which go by the elements that arrays show. -/
theorem comparison_lawful :
    (∀ x y : Binary64,
      x.equals y = true ↔ x.isNaN = false ∧ y.isNaN = false ∧ x.units = y.units) ∧
    (ComparesNumbers Value.equals Value.floats Value.plainZeros ∧
      ComparesNumbers Operand.equals Operand.floats Operand.plainZeros ∧
      ComparesNumbers Instruction.equals Instruction.floats Instruction.plainZeros) ∧
    LawfulComparison Value.equals Value.floats Value.encode ∧
    LawfulComparison Operand.equals Operand.floats Operand.encode ∧
    LawfulComparison Instruction.equals Instruction.floats Instruction.encode ∧
    (LawfulComparison SharedArray.equals (fun array => array.toList.flatMap Value.floats)
        (fun array => Value.encodeElements array.toList) ∧
      ∀ first second : SharedArray Value, first.equals second = true ↔
        List.Forall₂ (fun element other => element.equals other = true) first.toList
          second.toList) ∧
    (LawfulComparison (fun first second : SharedValue => (toValue first).equals (toValue second))
        (fun shared => (toValue shared).floats) SharedValue.encode ∧
      ∀ first second : SharedArray SharedValue,
        (toValue (SharedValue.array first)).equals (toValue (SharedValue.array second)) = true ↔
          List.Forall₂ (fun element other => (toValue element).equals (toValue other) = true)
            first.toList second.toList) := by
  have compareValues : ComparesNumbers Value.equals Value.floats Value.plainZeros :=
    fun _ _ => Value.equals_iff
  have compareOperands : ComparesNumbers Operand.equals Operand.floats Operand.plainZeros :=
    fun _ _ => Operand.equals_iff
  have compareInstructions :
      ComparesNumbers Instruction.equals Instruction.floats Instruction.plainZeros :=
    fun _ _ => Instruction.equals_iff
  have values : LawfulComparison Value.equals Value.floats Value.encode :=
    .of_compares compareValues Value.floats_plainZeros fun _ _ => Value.encode_alike
  have operands : LawfulComparison Operand.equals Operand.floats Operand.encode :=
    .of_compares compareOperands Operand.floats_plainZeros fun _ _ => Operand.encode_alike
  have instructions :
      LawfulComparison Instruction.equals Instruction.floats Instruction.encode :=
    .of_compares compareInstructions Instruction.floats_plainZeros fun _ _ =>
      Instruction.encode_alike
  exact ⟨fun _ _ => Binary64.equals_iff_units,
    ⟨compareValues, compareOperands, compareInstructions⟩, values, operands, instructions,
    ⟨SharedArray.lawfulComparison values, fun _ _ => SharedArray.equals_iff⟩,
    SharedValue.lawfulComparison values, fun _ _ => SharedValue.equals_array_iff⟩

-- A NaN keeps the array around it from being equal to itself, the signs of zeros do not.
example : (Value.array [.scalar (.float ⟨0x7ff8000000000000⟩)]).equals
    (.array [.scalar (.float ⟨0x7ff8000000000000⟩)]) = false := by decide

example : (Value.array [.scalar (.float ⟨0⟩)]).equals
    (.array [.scalar (.float ⟨0x8000000000000000⟩)]) = true := by decide

end LinearIR
