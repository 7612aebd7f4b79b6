import LinearIR.Bindings
import LinearIR.Execution.Outcome

/-!
# Execution contexts

What running code reads and writes: variables, and the value that a return leaves pending until
the run takes it. A frame is the plain context. A logged context does what another one does and
keeps the calls it received.
-/

set_option autoImplicit false

namespace LinearIR

class ExecutionContext (γ : Type) (V : outParam Type) where
  load : Variable → StateM γ (Option V)
  store : Variable → V → StateM γ Unit
  setReturn : V → StateM γ Unit
  takeReturn : StateM γ (Option V)
  buildArray : List V → StateM γ V

/-- The variables of one invocation, with the value it is about to return. -/
structure Frame (V : Type) where
  locals : Bindings Variable V
  pending : Option V
  deriving DecidableEq

namespace Frame

variable {V : Type}

def empty : Frame V where
  locals := ∅
  pending := none

def get? (frame : Frame V) (name : Variable) : Option V :=
  frame.locals.get? name

def bind (frame : Frame V) (name : Variable) (value : V) : Frame V :=
  { frame with locals := frame.locals.insert name value }

def ofList (pairs : List (Variable × V)) : Frame V where
  locals := .ofList pairs
  pending := none

def size (frame : Frame V) : Nat :=
  frame.locals.size

def isEmpty (frame : Frame V) : Bool :=
  frame.locals.isEmpty

def setReturn (frame : Frame V) (value : V) : Frame V :=
  { frame with pending := some value }

def takeReturn (frame : Frame V) : Option V × Frame V :=
  (frame.pending, { frame with pending := none })

end Frame

instance : ExecutionContext (Frame Value) Value where
  load name := fun frame => (frame.get? name, frame)
  store name value := fun frame => ((), frame.bind name value)
  setReturn value := fun frame => ((), frame.setReturn value)
  takeReturn := Frame.takeReturn
  buildArray elements := fun frame => (.array elements, frame)

inductive Event (V : Type) where
  | load (name : Variable)
  | store (name : Variable) (value : V)
  | setReturn (value : V)
  | takeReturn
  deriving DecidableEq

/-- A context with the calls it has received so far, the oldest first. -/
structure Logged (γ V : Type) where
  context : γ
  events : Array (Event V)

namespace Logged

variable {γ V : Type}

def ofContext (context : γ) : Logged γ V where
  context
  events := #[]

def record {α : Type} (event : Event V) (call : StateM γ α) : StateM (Logged γ V) α :=
  fun logged =>
    let (result, context) := call.run logged.context
    (result, { context, events := logged.events.push event })

end Logged

instance {γ V : Type} [ExecutionContext γ V] : ExecutionContext (Logged γ V) V where
  load name := Logged.record (.load name) (ExecutionContext.load name)
  store name value := Logged.record (.store name value) (ExecutionContext.store name value)
  setReturn value := Logged.record (.setReturn value) (ExecutionContext.setReturn value)
  takeReturn := Logged.record .takeReturn ExecutionContext.takeReturn
  buildArray elements := fun logged =>
    let (array, context) := (ExecutionContext.buildArray elements).run logged.context
    (array, { logged with context })

end LinearIR
