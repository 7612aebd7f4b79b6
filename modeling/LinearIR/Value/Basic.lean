import LinearIR.Binary64.Basic

/-!
# Values

Scalars and arrays of values. Two notions of sameness are kept apart: decidable equality holds
of identical values only, while `Value.equals` is the comparison that programs observe, in which
floats compare as numbers.
-/

set_option autoImplicit false

namespace LinearIR

inductive Scalar where
  | nil
  | bool (value : Bool)
  | fixnum (value : Int64)
  | float (value : Binary64)
  | str (value : String)
  deriving DecidableEq, Inhabited

inductive Value where
  | scalar (value : Scalar)
  | array (elements : List Value)
  deriving Inhabited

inductive Kind where
  | nil
  | boolean
  | fixnum
  | float
  | string
  | array
  deriving DecidableEq

def Kind.name : Kind → String
  | .nil => "nil"
  | .boolean => "boolean"
  | .fixnum => "fixnum"
  | .float => "float"
  | .string => "string"
  | .array => "array"

def Scalar.kind : Scalar → Kind
  | .nil => .nil
  | .bool _ => .boolean
  | .fixnum _ => .fixnum
  | .float _ => .float
  | .str _ => .string

/-- Scalars of different kinds are never equal, whatever number they hold. -/
def Scalar.equals : Scalar → Scalar → Bool
  | .nil, .nil => true
  | .bool x, .bool y => x == y
  | .fixnum x, .fixnum y => x == y
  | .float x, .float y => x.equals y
  | .str x, .str y => x == y
  | _, _ => false

namespace Value

@[match_pattern]
abbrev nil : Value := .scalar .nil

def kind : Value → Kind
  | .scalar value => value.kind
  | .array _ => .array

def isNil : Value → Bool
  | .scalar .nil => true
  | _ => false

def fixnum? : Value → Option Int64
  | .scalar (.fixnum value) => some value
  | _ => none

def elements? : Value → Option (List Value)
  | .array elements => some elements
  | .scalar _ => none

/-- The element at an index, or with `takeRest` the array of the elements from there on. Past
the end they are nil and the empty array. Only arrays have parts. -/
def extract? (value : Value) (index : Nat) (takeRest : Bool) : Option Value :=
  match value with
  | .scalar _ => none
  | .array elements =>
    some (if takeRest then .array (elements.drop index) else elements[index]?.getD nil)

mutual

/-- Comparison as programs observe it: element by element down to scalars. -/
def equals : Value → Value → Bool
  | .scalar x, .scalar y => x.equals y
  | .array xs, .array ys => allEqual xs ys
  | _, _ => false

def allEqual : List Value → List Value → Bool
  | [], [] => true
  | x :: xs, y :: ys => equals x y && allEqual xs ys
  | _, _ => false

end

mutual

private def decideEq : (x y : Value) → Decidable (x = y)
  | .scalar x, .scalar y =>
    if same : x = y then isTrue (congrArg Value.scalar same)
    else isFalse fun equal => same (Value.scalar.inj equal)
  | .array xs, .array ys =>
    match decideEqAll xs ys with
    | isTrue same => isTrue (congrArg Value.array same)
    | isFalse differ => isFalse fun equal => differ (Value.array.inj equal)
  | .scalar _, .array _ => isFalse nofun
  | .array _, .scalar _ => isFalse nofun

private def decideEqAll : (xs ys : List Value) → Decidable (xs = ys)
  | [], [] => isTrue rfl
  | [], _ :: _ => isFalse nofun
  | _ :: _, [] => isFalse nofun
  | x :: xs, y :: ys =>
    match decideEq x y, decideEqAll xs ys with
    | isTrue sameHead, isTrue sameTail => isTrue (by rw [sameHead, sameTail])
    | isFalse differ, _ => isFalse fun equal => differ (List.cons.inj equal).1
    | _, isFalse differ => isFalse fun equal => differ (List.cons.inj equal).2

end

instance : DecidableEq Value := decideEq

mutual

theorem induction {motive : Value → Prop} (scalar : ∀ value, motive (.scalar value))
    (array : ∀ elements, (∀ element ∈ elements, motive element) → motive (.array elements)) :
    (value : Value) → motive value
  | .scalar value => scalar value
  | .array elements => array elements (inductionAll scalar array elements)

private theorem inductionAll {motive : Value → Prop} (scalar : ∀ value, motive (.scalar value))
    (array : ∀ elements, (∀ element ∈ elements, motive element) → motive (.array elements)) :
    (elements : List Value) → ∀ element ∈ elements, motive element
  | [], _, member => absurd member List.not_mem_nil
  | first :: rest, element, member => by
    rcases List.mem_cons.mp member with same | later
    · exact same ▸ induction scalar array first
    · exact inductionAll scalar array rest element later

end

end Value

end LinearIR
