import LinearIR.Bindings
import LinearIR.Operand.Basic

/-!
# Known operands

What is known about variables at one point of the code: each known variable is bound to an
operand that has the same value there. Looking a variable up replaces it once; the operand found
is not looked up again.
-/

set_option autoImplicit false

namespace LinearIR

abbrev Known := Bindings Variable (Operand Value)

namespace Known

/-- Forgets a variable that is about to be written, and every operand that reads it. -/
def forget (known : Known) (name : Variable) : Known :=
  (known.erase name).filter fun _ operand => !operand.mentions name

end Known

namespace Operand

mutual

def resolve (known : Known) : Operand Value → Operand Value
  | .var name => (known.get? name).getD (.var name)
  | .array elements => .array (resolveAll known elements)
  | .constant value => .constant value
  | .label name => .label name
  | .self => .self

def resolveAll (known : Known) : List (Operand Value) → List (Operand Value)
  | [] => []
  | first :: rest => resolve known first :: resolveAll known rest

end

@[simp]
theorem resolveAll_eq_map (known : Known) (elements : List (Operand Value)) :
    resolveAll known elements = elements.map (resolve known) := by
  induction elements with
  | nil => rfl
  | cons first rest ih => simp [resolveAll, ih]

end Operand

end LinearIR
