import Mathlib.Data.List.Forall2
import LinearIR.Instruction.Basic
import LinearIR.Proofs.Comparison.Numbers

/-!
# Comparison and the signs of zeros

Comparison does not see the signs of zeros, and a NaN equals nothing. So two values are equal if
and only if no NaN occurs in the first and they are the same value once all zeros are positive. The
same holds of operands and of instructions.
-/

set_option autoImplicit false

namespace LinearIR

/-! ## Lists -/

section

variable {α : Type} {equals : α → α → Bool} {floats : α → List Binary64} {plainZeros : α → α}

/-- What comparison of elements comes to, comparison of lists comes to. -/
theorem forall₂_equals_iff {elements : List α} (others : List α)
    (elementwise : ∀ element ∈ elements, ∀ other, equals element other = true ↔
      (∀ x ∈ floats element, x.isNaN = false) ∧ plainZeros element = plainZeros other) :
    List.Forall₂ (fun element other => equals element other = true) elements others ↔
      (∀ x ∈ elements.flatMap floats, x.isNaN = false) ∧
        elements.map plainZeros = others.map plainZeros := by
  induction elements generalizing others with
  | nil => cases others <;> simp
  | cons first rest ih =>
      obtain ⟨head, tail⟩ := List.forall_mem_cons.mp elementwise
      cases others with
      | nil => simp
      | cons other others =>
          rw [List.forall₂_cons, head, ih others tail, List.flatMap_cons, List.forall_mem_append,
            List.map_cons, List.map_cons, List.cons.injEq]
          exact and_and_and_comm

end

/-! ## Values -/

def Scalar.floats : Scalar → List Binary64
  | .float x => [x]
  | .nil | .bool _ | .fixnum _ | .str _ => []

def Scalar.plainZero : Scalar → Scalar
  | .float x => .float x.plainZero
  | .nil => .nil
  | .bool value => .bool value
  | .fixnum value => .fixnum value
  | .str value => .str value

theorem Scalar.equals_iff {first second : Scalar} :
    first.equals second = true ↔
      (∀ x ∈ first.floats, x.isNaN = false) ∧ first.plainZero = second.plainZero := by
  cases first <;> cases second <;>
    simp [Scalar.equals, Scalar.floats, Scalar.plainZero, Binary64.equals_iff]

theorem Scalar.floats_plainZero (value : Scalar) :
    value.plainZero.floats = value.floats.map Binary64.plainZero := by
  cases value <;> rfl

namespace Value

mutual

/-- The floats that occur in a value, from left to right. -/
def floats : Value → List Binary64
  | .scalar value => value.floats
  | .array elements => listFloats elements

def listFloats : List Value → List Binary64
  | [] => []
  | first :: rest => floats first ++ listFloats rest

end

mutual

def plainZeros : Value → Value
  | .scalar value => .scalar value.plainZero
  | .array elements => .array (listPlainZeros elements)

def listPlainZeros : List Value → List Value
  | [] => []
  | first :: rest => plainZeros first :: listPlainZeros rest

end

@[simp]
theorem listFloats_eq_flatMap (elements : List Value) :
    listFloats elements = elements.flatMap floats := by
  induction elements with
  | nil => rfl
  | cons first rest ih => simp [listFloats, ih]

@[simp]
theorem listPlainZeros_eq_map (elements : List Value) :
    listPlainZeros elements = elements.map plainZeros := by
  induction elements with
  | nil => rfl
  | cons first rest ih => simp [listPlainZeros, ih]

theorem allEqual_iff {elements others : List Value} :
    allEqual elements others = true ↔
      List.Forall₂ (fun element other => element.equals other = true) elements others := by
  induction elements generalizing others with
  | nil => cases others <;> simp [allEqual]
  | cons first rest ih => cases others <;> simp [allEqual, ih]

theorem equals_iff {first second : Value} :
    first.equals second = true ↔
      (∀ x ∈ first.floats, x.isNaN = false) ∧ first.plainZeros = second.plainZeros := by
  induction first using Value.induction generalizing second with
  | scalar value =>
      cases second <;> simp [equals, floats, plainZeros, Scalar.equals_iff]
  | array elements ih =>
      cases second with
      | scalar other => simp [equals, plainZeros]
      | array others =>
          have elementwise := forall₂_equals_iff others fun element member _ =>
            ih element member
          simpa [equals, floats, plainZeros, allEqual_iff] using elementwise

theorem floats_plainZeros (value : Value) :
    value.plainZeros.floats = value.floats.map Binary64.plainZero := by
  induction value using Value.induction with
  | scalar value => exact value.floats_plainZero
  | array elements ih =>
      simp only [plainZeros, floats, listPlainZeros_eq_map, listFloats_eq_flatMap,
        List.flatMap_map, List.map_flatMap]
      exact List.flatMap_congr ih

end Value

/-! ## Operands -/

namespace Operand

mutual

/-- The floats that occur in the constants of an operand, from left to right. -/
def floats : Operand Value → List Binary64
  | .constant value => value.floats
  | .array elements => listFloats elements
  | .var _ | .label _ | .self => []

def listFloats : List (Operand Value) → List Binary64
  | [] => []
  | first :: rest => floats first ++ listFloats rest

end

def plainZeros (operand : Operand Value) : Operand Value :=
  operand.mapConstants Value.plainZeros

@[simp]
theorem listFloats_eq_flatMap (elements : List (Operand Value)) :
    listFloats elements = elements.flatMap floats := by
  induction elements with
  | nil => rfl
  | cons first rest ih => simp [listFloats, ih]

@[simp]
theorem listMapConstants_eq_map {V W : Type} (replace : V → W) (elements : List (Operand V)) :
    listMapConstants replace elements = elements.map (mapConstants replace) := by
  induction elements with
  | nil => rfl
  | cons first rest ih => simp [listMapConstants, ih]

theorem plainZeros_array (elements : List (Operand Value)) :
    (array elements).plainZeros = .array (elements.map plainZeros) := by
  rw [plainZeros, mapConstants, listMapConstants_eq_map]
  rfl

theorem allEqual_iff {elements others : List (Operand Value)} :
    allEqual elements others = true ↔
      List.Forall₂ (fun element other => element.equals other = true) elements others := by
  induction elements generalizing others with
  | nil => cases others <;> simp [allEqual]
  | cons first rest ih => cases others <;> simp [allEqual, ih]

theorem equals_iff {first second : Operand Value} :
    first.equals second = true ↔
      (∀ x ∈ first.floats, x.isNaN = false) ∧ first.plainZeros = second.plainZeros := by
  induction first using Operand.induction generalizing second with
  | var | label | self =>
      cases second <;> simp [equals, floats, plainZeros, mapConstants]
  | constant value =>
      cases second <;> simp [equals, floats, plainZeros, mapConstants, Value.equals_iff]
  | array elements ih =>
      cases second with
      | array others =>
          have elementwise := forall₂_equals_iff others fun element member _ =>
            ih element member
          simpa [equals, floats, plainZeros_array, allEqual_iff] using elementwise
      | var | constant | label | self => simp [equals, plainZeros, mapConstants]

theorem floats_plainZeros (operand : Operand Value) :
    operand.plainZeros.floats = operand.floats.map Binary64.plainZero := by
  induction operand using Operand.induction with
  | constant value => exact value.floats_plainZeros
  | array elements ih =>
      simp only [plainZeros_array, floats, listFloats_eq_flatMap, List.flatMap_map,
        List.map_flatMap]
      exact List.flatMap_congr ih
  | var | label | self => rfl

end Operand

/-! ## Instructions -/

namespace Instruction

def floats (instruction : Instruction Value) : List Binary64 :=
  instruction.operands.flatMap Operand.floats

def plainZeros (instruction : Instruction Value) : Instruction Value :=
  instruction.mapOperands Operand.plainZeros

theorem equals_iff {first second : Instruction Value} :
    first.equals second = true ↔
      (∀ x ∈ first.floats, x.isNaN = false) ∧ first.plainZeros = second.plainZeros := by
  -- Only the order of the conditions differs: here each field is compared in its place.
  cases first <;> cases second <;>
    simp [equals, floats, operands, plainZeros, mapOperands, Operand.equals_iff] <;> grind

theorem floats_plainZeros (instruction : Instruction Value) :
    instruction.plainZeros.floats = instruction.floats.map Binary64.plainZero := by
  simp only [floats, plainZeros, operands_mapOperands, List.flatMap_map, List.map_flatMap]
  exact List.flatMap_congr fun operand _ => operand.floats_plainZeros

end Instruction

end LinearIR
