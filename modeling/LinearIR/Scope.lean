import LinearIR.Folding
import LinearIR.Instruction.Text

/-!
# Scopes

A scope owns the code of one method body and hands out fresh names for it. Temporaries and
labels are numbered apart, each by a counter that only grows.
-/

set_option autoImplicit false

namespace LinearIR

def Variable.temporary (number : Nat) : Variable where
  name := "%v_" ++ toString number

def Label.numbered (number : Nat) : Label where
  name := "_LBL_" ++ toString number

structure Scope where
  name : String
  params : List Variable
  instructions : Code Value
  nextTemporary : Nat
  nextLabel : Nat
  deriving DecidableEq

namespace Scope

def create (name : String) (params : List Variable) : Scope where
  name
  params
  instructions := []
  nextTemporary := 0
  nextLabel := 0

def newTemporary (scope : Scope) : Variable × Scope :=
  (.temporary scope.nextTemporary, { scope with nextTemporary := scope.nextTemporary + 1 })

def newLabel (scope : Scope) : Label × Scope :=
  (.numbered scope.nextLabel, { scope with nextLabel := scope.nextLabel + 1 })

def setInstructions (scope : Scope) (code : Code Value) : Scope :=
  { scope with instructions := code }

def append (scope : Scope) (code : Code Value) : Scope :=
  scope.setInstructions (scope.instructions ++ code)

def push (scope : Scope) (instruction : Instruction Value) : Scope :=
  scope.append [instruction]

/-- Inserts an instruction in front of a position, or at the end if the code is shorter. -/
def insertAt (scope : Scope) (position : Nat) (instruction : Instruction Value) : Scope :=
  scope.setInstructions
    (scope.instructions.take position ++ instruction :: scope.instructions.drop position)

def fold (scope : Scope) (options : FoldOptions) : Folded × Scope :=
  let folded := scope.instructions.fold options
  (folded, scope.setInstructions folded.live)

/-- One numbered line of the listing. Numbers are flush right in three columns. -/
def line (position : Nat) (instruction : Instruction Value) : String :=
  let number := String.ofList ((Nat.toDigits 10 position).leftpad 3 ' ')
  "  " ++ number ++ "  " ++ instruction.text ++ "\n"

/-- The listing of a scope: a line for its name and parameters, then one for each instruction. -/
def text (scope : Scope) : String :=
  let params := ", ".intercalate (scope.params.map Variable.name)
  let lines := scope.instructions.mapIdx line
  scope.name ++ "(" ++ params ++ "):\n" ++ String.join lines

end Scope

end LinearIR
