import LinearIR.Name
import LinearIR.Value.Basic

/-!
# Operands

What an instruction consumes: a variable, a constant, an array literal whose elements are
operands again, a label, or the receiver of the running invocation. The type of constants is a
parameter, because running code may use constants that carry more than their value.
-/

set_option autoImplicit false

namespace LinearIR

inductive Operand (V : Type) where
  | var (name : Variable)
  | constant (value : V)
  | array (elements : List (Operand V))
  | label (name : Label)
  | self
  deriving Inhabited

/-- The operand has no parts that are known before the code runs. -/
inductive NotStaticallyKnown where
  | notAnArray
  deriving DecidableEq

def NotStaticallyKnown.message : NotStaticallyKnown → String
  | .notAnArray => "operand is not a statically known array"

namespace Operand

variable {V : Type}

def var? : Operand V → Option Variable
  | .var name => some name
  | _ => none

mutual

/-- The variables the operand reads, from left to right and with repeats. -/
def vars : Operand V → List Variable
  | .var name => [name]
  | .array elements => listVars elements
  | .constant _ | .label _ | .self => []

def listVars : List (Operand V) → List Variable
  | [] => []
  | first :: rest => vars first ++ listVars rest

end

mutual

/-- The labels the operand names, from left to right and with repeats. -/
def labels : Operand V → List Label
  | .label name => [name]
  | .array elements => listLabels elements
  | .var _ | .constant _ | .self => []

def listLabels : List (Operand V) → List Label
  | [] => []
  | first :: rest => labels first ++ listLabels rest

end

mutual

def mentions (name : Variable) : Operand V → Bool
  | .var candidate => candidate == name
  | .array elements => anyMentions name elements
  | .constant _ | .label _ | .self => false

def anyMentions (name : Variable) : List (Operand V) → Bool
  | [] => false
  | first :: rest => mentions name first || anyMentions name rest

end

mutual

def mapConstants {W : Type} (replace : V → W) : Operand V → Operand W
  | .var name => .var name
  | .constant value => .constant (replace value)
  | .array elements => .array (listMapConstants replace elements)
  | .label name => .label name
  | .self => .self

def listMapConstants {W : Type} (replace : V → W) : List (Operand V) → List (Operand W)
  | [] => []
  | first :: rest => mapConstants replace first :: listMapConstants replace rest

end

/-- The part of a literal or of a constant array at an index, or with `takeRest` the array of
the parts from there on. Past the end they are nil and the empty array. -/
def extract (operand : Operand Value) (index : Nat) (takeRest : Bool) :
    Except NotStaticallyKnown (Operand Value) :=
  match operand with
  | .array elements =>
    .ok (if takeRest then .array (elements.drop index)
      else elements[index]?.getD (.constant .nil))
  | .constant value =>
    match value.extract? index takeRest with
    | some part => .ok (.constant part)
    | none => .error .notAnArray
  | .var _ | .label _ | .self => .error .notAnArray

mutual

/-- Comparison of operands, in which constants compare as programs observe them. -/
def equals : Operand Value → Operand Value → Bool
  | .var x, .var y => x == y
  | .constant x, .constant y => x.equals y
  | .array xs, .array ys => allEqual xs ys
  | .label x, .label y => x == y
  | .self, .self => true
  | _, _ => false

def allEqual : List (Operand Value) → List (Operand Value) → Bool
  | [], [] => true
  | x :: xs, y :: ys => equals x y && allEqual xs ys
  | _, _ => false

end

mutual

private def decideEq [DecidableEq V] : (x y : Operand V) → Decidable (x = y)
  | .var x, .var y =>
    if same : x = y then isTrue (congrArg Operand.var same)
    else isFalse fun equal => same (Operand.var.inj equal)
  | .constant x, .constant y =>
    if same : x = y then isTrue (congrArg Operand.constant same)
    else isFalse fun equal => same (Operand.constant.inj equal)
  | .array xs, .array ys =>
    match decideEqAll xs ys with
    | isTrue same => isTrue (congrArg Operand.array same)
    | isFalse differ => isFalse fun equal => differ (Operand.array.inj equal)
  | .label x, .label y =>
    if same : x = y then isTrue (congrArg Operand.label same)
    else isFalse fun equal => same (Operand.label.inj equal)
  | .self, .self => isTrue rfl
  | .var _, .constant _ | .var _, .array _ | .var _, .label _ | .var _, .self
  | .constant _, .var _ | .constant _, .array _ | .constant _, .label _ | .constant _, .self
  | .array _, .var _ | .array _, .constant _ | .array _, .label _ | .array _, .self
  | .label _, .var _ | .label _, .constant _ | .label _, .array _ | .label _, .self
  | .self, .var _ | .self, .constant _ | .self, .array _ | .self, .label _ =>
    isFalse nofun

private def decideEqAll [DecidableEq V] : (xs ys : List (Operand V)) → Decidable (xs = ys)
  | [], [] => isTrue rfl
  | [], _ :: _ => isFalse nofun
  | _ :: _, [] => isFalse nofun
  | x :: xs, y :: ys =>
    match decideEq x y, decideEqAll xs ys with
    | isTrue sameHead, isTrue sameTail => isTrue (by rw [sameHead, sameTail])
    | isFalse differ, _ => isFalse fun equal => differ (List.cons.inj equal).1
    | _, isFalse differ => isFalse fun equal => differ (List.cons.inj equal).2

end

instance [DecidableEq V] : DecidableEq (Operand V) := decideEq

mutual

theorem induction {motive : Operand V → Prop} (var : ∀ name, motive (.var name))
    (constant : ∀ value, motive (.constant value))
    (array : ∀ elements, (∀ element ∈ elements, motive element) → motive (.array elements))
    (label : ∀ name, motive (.label name)) (self : motive .self) :
    (operand : Operand V) → motive operand
  | .var name => var name
  | .constant value => constant value
  | .array elements =>
    array elements (inductionAll var constant array label self elements)
  | .label name => label name
  | .self => self

private theorem inductionAll {motive : Operand V → Prop}
    (var : ∀ name, motive (.var name)) (constant : ∀ value, motive (.constant value))
    (array : ∀ elements, (∀ element ∈ elements, motive element) → motive (.array elements))
    (label : ∀ name, motive (.label name)) (self : motive .self) :
    (elements : List (Operand V)) → ∀ element ∈ elements, motive element
  | [], _, member => absurd member List.not_mem_nil
  | first :: rest, element, member => by
    rcases List.mem_cons.mp member with same | later
    · exact same ▸ induction var constant array label self first
    · exact inductionAll var constant array label self rest element later

end

@[simp]
theorem listVars_eq_flatMap (elements : List (Operand V)) :
    listVars elements = elements.flatMap vars := by
  induction elements with
  | nil => rfl
  | cons first rest ih => simp [listVars, ih]

@[simp]
theorem listLabels_eq_flatMap (elements : List (Operand V)) :
    listLabels elements = elements.flatMap labels := by
  induction elements with
  | nil => rfl
  | cons first rest ih => simp [listLabels, ih]

@[simp]
theorem anyMentions_eq_any (name : Variable) (elements : List (Operand V)) :
    anyMentions name elements = elements.any (mentions name) := by
  induction elements with
  | nil => rfl
  | cons first rest ih => simp [anyMentions, ih]

end Operand

end LinearIR
