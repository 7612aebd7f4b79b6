import LinearIR.Instruction.Basic
import LinearIR.Operand.Text

/-!
# How code ends

A fault means that the code itself is inconsistent. Taking a part past the end of an array is
none. Reaching the step limit is not a fault of any instruction.
-/

set_option autoImplicit false

namespace LinearIR

inductive Fault (V : Type) where
  /-- The source of an extraction, as written in the instruction, and what its value was. -/
  | notAnArray (operand : Operand V) (found : Kind)
  | unboundVariable (name : Variable)
  | labelAsValue (name : Label)
  | unknownLabel (name : Label)
  deriving DecidableEq

def Fault.mapConstants {V W : Type} (replace : V → W) : Fault V → Fault W
  | .notAnArray operand found => .notAnArray (operand.mapConstants replace) found
  | .unboundVariable name => .unboundVariable name
  | .labelAsValue name => .labelAsValue name
  | .unknownLabel name => .unknownLabel name

def Fault.message : Fault Value → String
  | .notAnArray operand found =>
    "GET_ARRAY source `" ++ operand.text ++ "` is not an array (found " ++ found.name ++ ")"
  | .unboundVariable name => "variable `" ++ name.name ++ "` read before it was assigned"
  | .labelAsValue name => "label `" ++ name.name ++ "` used as a value"
  | .unknownLabel name => "jump to unknown label `" ++ name.name ++ "`"

inductive Outcome (V : Type) where
  | finished
  | returned (value : V)
  | faulted (fault : Fault V)
  /-- The instructions executed, and the limit that stopped the run. -/
  | stepLimit (steps limit : Nat)
  deriving DecidableEq

def Outcome.mapConstants {V W : Type} (replace : V → W) : Outcome V → Outcome W
  | .finished => .finished
  | .returned value => .returned (replace value)
  | .faulted fault => .faulted (fault.mapConstants replace)
  | .stepLimit steps limit => .stepLimit steps limit

def stepLimitMessage (steps limit : Nat) : String :=
  "step limit exceeded: executed " ++ toString steps ++ " instructions (limit: " ++
    toString limit ++ ")"

end LinearIR
