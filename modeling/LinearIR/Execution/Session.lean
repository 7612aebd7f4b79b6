import LinearIR.Execution.Run
import LinearIR.Value.Shared

/-!
# Sessions on one frame

A session keeps a frame of shared values across single instructions, whole runs and direct
writes, together with saved copies of the frame. Constants of code get storage when the code
enters the session, so that every execution of one constant yields the same array.
-/

set_option autoImplicit false

namespace LinearIR

/-- A frame of shared values, with the number of the next storage. -/
structure SharedFrame where
  frame : Frame SharedValue
  nextStorage : Nat

namespace SharedFrame

def share (value : Value) : StateM SharedFrame SharedValue := fun state =>
  let (shared, nextStorage) := SharedValue.ofValue state.nextStorage value
  (shared, { state with nextStorage })

def newStorage : StateM SharedFrame Nat := fun state =>
  (state.nextStorage, { state with nextStorage := state.nextStorage + 1 })

end SharedFrame

instance : ExecutionContext SharedFrame SharedValue where
  load name := fun state => (state.frame.get? name, state)
  store name value := fun state => ((), { state with frame := state.frame.bind name value })
  setReturn value := fun state => ((), { state with frame := state.frame.setReturn value })
  takeReturn := fun state =>
    let (returned, frame) := state.frame.takeReturn
    (returned, { state with frame })
  buildArray elements := do
    let storage ← SharedFrame.newStorage
    return .array (.ofList storage elements)

mutual

def Operand.share : Operand Value → StateM SharedFrame (Operand SharedValue)
  | .var name => return .var name
  | .constant value => return .constant (← SharedFrame.share value)
  | .array elements => return .array (← Operand.shareAll elements)
  | .label name => return .label name
  | .self => return .self

def Operand.shareAll : List (Operand Value) → StateM SharedFrame (List (Operand SharedValue))
  | [] => return []
  | first :: rest => return (← first.share) :: (← Operand.shareAll rest)

end

def Instruction.share : Instruction Value → StateM SharedFrame (Instruction SharedValue)
  | .copy result source => return .copy result (← source.share)
  | .getArray result array index takeRest =>
    return .getArray result (← array.share) index takeRest
  | .label name => return .label name
  | .jump target => return .jump target
  | .beq first second target => return .beq (← first.share) (← second.share) target
  | .ret value => return .ret (← value.share)

structure Session where
  state : SharedFrame
  /-- The saved frames, the newest first. -/
  saved : List (Frame SharedValue)
  receiver : SharedValue

namespace Session

def start (receiver : Value) : Session :=
  let (receiver, nextStorage) := SharedValue.ofValue 0 receiver
  { state := { frame := .empty, nextStorage }, saved := [], receiver }

def frame (session : Session) : Frame SharedValue :=
  session.state.frame

def get? (session : Session) (name : Variable) : Option Value :=
  (session.frame.get? name).map toValue

def perform {α : Type} (session : Session) (computation : StateM SharedFrame α) : α × Session :=
  let (result, state) := computation.run session.state
  (result, { session with state })

def bind (session : Session) (name : Variable) (value : Value) : Session :=
  (session.perform do
    let shared ← SharedFrame.share value
    ExecutionContext.store (γ := SharedFrame) name shared).2

def setReturn (session : Session) (value : Value) : Session :=
  (session.perform do
    let shared ← SharedFrame.share value
    ExecutionContext.setReturn (γ := SharedFrame) shared).2

def takeReturn (session : Session) : Option Value × Session :=
  let (returned, session) := session.perform (ExecutionContext.takeReturn (γ := SharedFrame))
  (returned.map toValue, session)

def save (session : Session) : Session :=
  { session with saved := session.frame :: session.saved }

def restore? (session : Session) : Option Session :=
  match session.saved with
  | [] => none
  | frame :: saved => some { session with state := { session.state with frame }, saved }

/-- Writes the array of a variable in place, if the variable is bound to an array. The function
is given a storage that nothing uses. -/
def modifyArray? (session : Session) (name : Variable)
    (change : Nat → SharedArray SharedValue → SharedArray SharedValue) : Option Session :=
  match (session.frame.get? name).bind SharedValue.array? with
  | none => none
  | some array =>
    some (session.perform do
      let storage ← SharedFrame.newStorage
      ExecutionContext.store (γ := SharedFrame) name (.array (change storage array))).2

def setElement? (session : Session) (name : Variable) (index : Nat) (value : Value) :
    Option Session :=
  let (shared, session) := session.perform (SharedFrame.share value)
  session.modifyArray? name fun storage array => array.set storage (.scalar .nil) index shared

def pushElement? (session : Session) (name : Variable) (value : Value) : Option Session :=
  let (shared, session) := session.perform (SharedFrame.share value)
  session.modifyArray? name fun storage array => array.push storage shared

def shares? (session : Session) (first second : Variable) : Option Bool := do
  let firstArray ← (session.frame.get? first).bind SharedValue.array?
  let secondArray ← (session.frame.get? second).bind SharedValue.array?
  return firstArray.sharesStorage secondArray

def execute (session : Session) (instruction : Instruction Value) :
    Except (Fault Value) (Option Label) × Session :=
  let (result, session) := session.perform do
    let shared ← instruction.share
    (shared.execute (γ := SharedFrame) session.receiver).run
  (result.mapError (Fault.mapConstants toValue), session)

def run (session : Session) (code : Code Value) (limit? : Option Nat) :
    Outcome Value × Session :=
  let (outcome, session) := session.perform do
    let shared ← code.mapM Instruction.share
    fun state => Code.run shared limit? session.receiver state
  (outcome.mapConstants toValue, session)

end Session

end LinearIR
