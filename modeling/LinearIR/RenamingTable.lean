import LinearIR.Bindings
import LinearIR.Instruction.Basic

/-!
# Renaming into another scope

A renaming table says what becomes of each name when code moves into another scope: the new
variables and labels, the operand that stands for the receiver, the variable that takes the
returned value and the label where control goes after a return.
-/

set_option autoImplicit false

namespace LinearIR

structure RenamingTable where
  vars : Bindings Variable Variable
  labels : Bindings Label Label
  receiver : Operand Value
  callResult : Variable
  exitLabel : Label

inductive InlineError where
  | missingVariable (name : Variable)
  | missingLabel (name : Label)
  | arityMismatch (expected found : Nat)
  deriving DecidableEq

def InlineError.message : InlineError → String
  | .missingVariable name => "no renaming recorded for variable `" ++ name.name ++ "`"
  | .missingLabel name => "no renaming recorded for label `" ++ name.name ++ "`"
  | .arityMismatch expected found =>
    "call passes " ++ toString found ++ " argument(s) but the callee takes " ++ toString expected

namespace RenamingTable

def ofCall (receiver : Operand Value) (callResult : Variable) (exitLabel : Label) :
    RenamingTable where
  vars := ∅
  labels := ∅
  receiver
  callResult
  exitLabel

def addVariable (table : RenamingTable) (old new : Variable) : RenamingTable :=
  { table with vars := table.vars.insert old new }

def addLabel (table : RenamingTable) (old new : Label) : RenamingTable :=
  { table with labels := table.labels.insert old new }

def renameVariable (table : RenamingTable) (old : Variable) : Except InlineError Variable :=
  match table.vars.get? old with
  | some new => .ok new
  | none => .error (.missingVariable old)

def renameLabel (table : RenamingTable) (old : Label) : Except InlineError Label :=
  match table.labels.get? old with
  | some new => .ok new
  | none => .error (.missingLabel old)

end RenamingTable

namespace Operand

mutual

/-- Renames the names of an operand from left to right. The receiver becomes the operand that
stands for it, which belongs to the new scope and is not renamed. -/
def rename (table : RenamingTable) : Operand Value → Except InlineError (Operand Value)
  | .var name => return .var (← table.renameVariable name)
  | .constant value => return .constant value
  | .array elements => return .array (← renameAll table elements)
  | .label name => return .label (← table.renameLabel name)
  | .self => return table.receiver

def renameAll (table : RenamingTable) :
    List (Operand Value) → Except InlineError (List (Operand Value))
  | [] => return []
  | first :: rest => return (← rename table first) :: (← renameAll table rest)

end

end Operand

/-- Renames an instruction: first its destination, then its operands, last its label. A return
becomes a copy into the variable that takes the returned value. -/
def Instruction.rename (table : RenamingTable) :
    Instruction Value → Except InlineError (Instruction Value)
  | .copy result source =>
    return .copy (← table.renameVariable result) (← source.rename table)
  | .getArray result array index takeRest =>
    return .getArray (← table.renameVariable result) (← array.rename table) index takeRest
  | .label name => return .label (← table.renameLabel name)
  | .jump target => return .jump (← table.renameLabel target)
  | .beq first second target =>
    return .beq (← first.rename table) (← second.rename table)
      (← table.renameLabel target)
  | .ret value => return .copy table.callResult (← value.rename table)

end LinearIR
