/-!
# Names

Variables and labels are named apart: a variable and a label of one spelling are unrelated.
-/

set_option autoImplicit false

namespace LinearIR

structure Variable where
  name : String
  deriving DecidableEq, Inhabited

structure Label where
  name : String
  deriving DecidableEq, Inhabited

end LinearIR
