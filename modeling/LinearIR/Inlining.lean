import LinearIR.RenamingTable
import LinearIR.Scope

/-!
# Inlining

A call is replaced by a fragment of the caller's own code: a copy of every argument into a fresh
variable, the callee's code with all its names renamed to fresh ones, and a label where each
return of the callee continues. The fresh names come from the caller's counters, so no name is
handed out to two fragments of one caller.
-/

set_option autoImplicit false

namespace LinearIR

namespace Scope

/-- Renames each variable to a new temporary of the caller, unless the table has it already. -/
def allocateVariables (caller : Scope) (table : RenamingTable) :
    List Variable → RenamingTable × Scope
  | [] => (table, caller)
  | name :: rest =>
    if table.vars.contains name then caller.allocateVariables table rest
    else
      let (fresh, caller) := caller.newTemporary
      caller.allocateVariables (table.addVariable name fresh) rest

def allocateLabels (caller : Scope) (table : RenamingTable) : List Label → RenamingTable × Scope
  | [] => (table, caller)
  | name :: rest =>
    if table.labels.contains name then caller.allocateLabels table rest
    else
      let (fresh, caller) := caller.newLabel
      caller.allocateLabels (table.addLabel name fresh) rest

def vars (scope : Scope) : List Variable :=
  scope.params ++ scope.instructions.flatMap Instruction.vars

def labels (scope : Scope) : List Label :=
  scope.instructions.flatMap Instruction.labels

theorem mem_vars_iff {scope : Scope} {name : Variable} :
    name ∈ scope.vars ↔
      name ∈ scope.params ∨ ∃ instruction ∈ scope.instructions, name ∈ instruction.vars := by
  simp [vars]

theorem mem_labels_iff {scope : Scope} {name : Label} :
    name ∈ scope.labels ↔ ∃ instruction ∈ scope.instructions, name ∈ instruction.labels :=
  List.mem_flatMap

/-- The table for one call. A call that names no result variable gets a temporary for it. -/
def renamingTable (caller callee : Scope) (receiver : Operand Value) (result? : Option Variable) :
    RenamingTable × Scope :=
  let (callResult, caller) := match result? with
    | some result => (result, caller)
    | none => caller.newTemporary
  let (exitLabel, caller) := caller.newLabel
  let (table, caller) :=
    caller.allocateVariables (.ofCall receiver callResult exitLabel) callee.vars
  caller.allocateLabels table callee.labels

end Scope

namespace RenamingTable

def passArguments (table : RenamingTable) :
    List (Variable × Operand Value) → Except InlineError (Code Value)
  | [] => return []
  | (param, argument) :: rest => do
    let copy := .copy (← table.renameVariable param) argument
    return copy :: (← table.passArguments rest)

/-- Renames the callee's code. The copy that a return becomes is followed by a jump to the
exit. -/
def renameBody (table : RenamingTable) : Code Value → Except InlineError (Code Value)
  | [] => return []
  | instruction :: rest => do
    let renamed ← instruction.rename table
    let following ← table.renameBody rest
    return if instruction.isReturn then renamed :: .jump table.exitLabel :: following
      else renamed :: following

end RenamingTable

namespace Scope

/-- The fragment for a call, and the caller with the names that the fragment took. A call with
the wrong number of arguments takes none. -/
def inline (caller callee : Scope) (receiver : Operand Value) (arguments : List (Operand Value))
    (result? : Option Variable) : Except InlineError (Code Value × Scope) := do
  if arguments.length ≠ callee.params.length then
    throw (.arityMismatch callee.params.length arguments.length)
  let (table, caller) := caller.renamingTable callee receiver result?
  let passed ← table.passArguments (callee.params.zip arguments)
  let body ← table.renameBody callee.instructions
  return (passed ++ body ++ [.label table.exitLabel], caller)

/-- Inlining in place: the caller is changed as names are taken from it, and stays changed if the
call fails after that. -/
def inlineInPlace (callee : Scope) (receiver : Operand Value) (arguments : List (Operand Value))
    (result? : Option Variable) : ExceptT InlineError (StateM Scope) (Code Value) := do
  if arguments.length ≠ callee.params.length then
    throw (.arityMismatch callee.params.length arguments.length)
  let table ← modifyGet fun caller => caller.renamingTable callee receiver result?
  let passed ← MonadExcept.ofExcept (table.passArguments (callee.params.zip arguments))
  let body ← MonadExcept.ofExcept (table.renameBody callee.instructions)
  return passed ++ body ++ [.label table.exitLabel]

end Scope

end LinearIR
