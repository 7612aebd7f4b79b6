import LinearIR.Value.Shared
import LinearIR.Wire.Value

/-!
# Wire format of values that share storage

Storage is not written. An array is the count of the elements that it shows and those elements,
wherever in its storage it begins.
-/

set_option autoImplicit false

namespace LinearIR.SharedValue

open Wire

mutual

def encode : SharedValue → List UInt8
  | .scalar value => value.encode
  | .array ⟨_, stored, start⟩ =>
    encodeNat 5 ++ encodeNat (stored.length - start) ++ encodeFrom start stored

def encodeFrom : Nat → List SharedValue → List UInt8
  | _, [] => []
  | 0, first :: rest => encode first ++ encodeFrom 0 rest
  | passed + 1, _ :: rest => encodeFrom passed rest

end

/-- The elements with their count, but without the kind of a value. -/
def encodeElements (array : SharedArray SharedValue) : List UInt8 :=
  encodeNat array.length ++ encodeFrom array.start array.stored

mutual

theorem encode_eq : (shared : SharedValue) → shared.encode = (value shared).encode
  | .scalar _ => rfl
  | .array ⟨_, stored, start⟩ => by
    simp [encode, value, Value.encode, encodeFrom_eq start stored, values_eq_map]

theorem encodeFrom_eq : (passed : Nat) → (elements : List SharedValue) →
    encodeFrom passed elements = Value.encodeAll ((values elements).drop passed)
  | _, [] => by simp [encodeFrom, values, Value.encodeAll]
  | 0, first :: rest => by
    simp [encodeFrom, values, Value.encodeAll, encode_eq first, encodeFrom_eq 0 rest]
  | passed + 1, _ :: rest => by simp [encodeFrom, values, encodeFrom_eq passed rest]

end

theorem encodeElements_eq (array : SharedArray SharedValue) :
    encodeElements array = Value.encodeElements (array.toList.map value) := by
  simp [encodeElements, Value.encodeElements, encodeFrom_eq, values_eq_map, SharedArray.toList,
    SharedArray.length, List.map_drop]

end LinearIR.SharedValue
