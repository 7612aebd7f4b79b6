import LinearIR.Operand.Basic
import LinearIR.Value.Text

/-!
# Text of operands

An array literal is marked by a word in front of its bracket, which a constant array lacks.
-/

set_option autoImplicit false

namespace LinearIR.Operand

mutual

def text : Operand Value → String
  | .var name => name.name
  | .constant value => value.text
  | .array elements => "Array:[" ++ listText elements ++ "]"
  | .label name => name.name
  | .self => "%self"

def listText : List (Operand Value) → String
  | [] => ""
  | [last] => text last
  | first :: second :: rest => text first ++ ", " ++ listText (second :: rest)

end

end LinearIR.Operand
