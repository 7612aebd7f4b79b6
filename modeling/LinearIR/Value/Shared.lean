import LinearIR.SharedArray.Basic
import LinearIR.Value.Like

/-!
# Values that share storage

A shared value is a value whose arrays know their storage, at every depth. Copying one copies
the storage numbers too, which is how two variables come to share an array.
-/

set_option autoImplicit false

namespace LinearIR

inductive SharedValue where
  | scalar (value : Scalar)
  | array (elements : SharedArray SharedValue)

namespace SharedValue

mutual

def value : SharedValue → Value
  | .scalar single => .scalar single
  | .array ⟨_, stored, start⟩ => .array ((values stored).drop start)

def values : List SharedValue → List Value
  | [] => []
  | first :: rest => value first :: values rest

end

theorem values_eq_map (elements : List SharedValue) : values elements = elements.map value := by
  induction elements with
  | nil => rfl
  | cons first rest ih => simp [values, ih]

mutual

/-- Gives every array of a value a storage of its own, numbered from `next` on. The second
result is the next number after those. -/
def ofValue (next : Nat) : Value → SharedValue × Nat
  | .scalar single => (.scalar single, next)
  | .array elements =>
    let (stored, next) := ofValues next elements
    (.array (.ofList next stored), next + 1)

def ofValues (next : Nat) : List Value → List SharedValue × Nat
  | [] => ([], next)
  | first :: rest =>
    let (head, next) := ofValue next first
    let (tail, next) := ofValues next rest
    (head :: tail, next)

end

/-- The part of an array, as `Value.extract?` takes it. The rest of an array shares its
storage. -/
def extract? (value : SharedValue) (index : Nat) (takeRest : Bool) : Option SharedValue :=
  match value with
  | .scalar _ => none
  | .array elements =>
    some (if takeRest then .array (elements.tail index) else elements.entry (.scalar .nil) index)

def array? : SharedValue → Option (SharedArray SharedValue)
  | .scalar _ => none
  | .array elements => some elements

theorem value_array (elements : SharedArray SharedValue) :
    value (.array elements) = .array (elements.toList.map value) := by
  obtain ⟨storage, stored, start⟩ := elements
  simp [value, values_eq_map, SharedArray.toList, List.map_drop]

private theorem value_extract? (shared : SharedValue) (index : Nat) (takeRest : Bool) :
    (extract? shared index takeRest).map value = (value shared).extract? index takeRest := by
  cases shared with
  | scalar single => simp [extract?, value, Value.extract?]
  | array elements =>
    rw [value_array]
    cases takeRest with
    | true => simp [extract?, Value.extract?, value_array, SharedArray.toList_tail, List.map_drop]
    | false =>
      simp only [extract?, Value.extract?, SharedArray.entry, SharedArray.get?, Bool.false_eq_true,
        if_false, Option.map_some, List.getElem?_map, Option.some.injEq]
      cases elements.toList[index]? <;> simp [value]

instance : ValueLike SharedValue where
  toValue := value
  extract? := extract?
  toValue_extract? := value_extract?

end SharedValue

end LinearIR
