import LinearIR.Execution.Step

/-!
# Running code

A run is at a position of the code or has ended. One step executes the instruction at the
position; `RunState.advance` repeats it. A limited run is the state after as many steps as the
limit allows, and a run that has not ended by then is cut off.
-/

set_option autoImplicit false

namespace LinearIR

variable {γ V : Type}

def Instruction.defines (target : Label) : Instruction V → Bool
  | .label name => name == target
  | _ => false

/-- Where a jump continues: the last definition of the label in the code. -/
def Code.labelPosition? (target : Label) : Code V → Option Nat
  | [] => none
  | instruction :: rest =>
    match Code.labelPosition? target rest with
    | some position => some (position + 1)
    | none => if instruction.defines target then some 0 else none

inductive RunState (γ V : Type) where
  | running (position : Nat) (context : γ)
  | ended (outcome : Outcome V) (context : γ)

namespace RunState

/-- Control arrives at a position. Past the end of the code the run has ended. -/
def arrive (code : Code V) (position : Nat) (context : γ) : RunState γ V :=
  if position < code.length then .running position context else .ended .finished context

variable [ExecutionContext γ V] [ValueLike V]

/-- Control leaves an instruction that has been executed. A return takes the pending value. -/
def follow (code : Code V) (position : Nat) (instruction : Instruction V) (target? : Option Label)
    (context : γ) : RunState γ V :=
  match target? with
  | some target =>
    match code.labelPosition? target with
    | some position => arrive code position context
    | none => .ended (.faulted (.unknownLabel target)) context
  | none =>
    if instruction.isReturn then
      let (returned, context) := ExecutionContext.takeReturn.run context
      match returned with
      | some value => .ended (.returned value) context
      | none => .ended .finished context
    else arrive code (position + 1) context

/-- Executes the instruction at the position. A run that has ended stays as it is. -/
def step (code : Code V) (receiver : V) : RunState γ V → RunState γ V
  | .ended outcome context => .ended outcome context
  | .running position context =>
    match code[position]? with
    | none => .ended .finished context
    | some instruction =>
      match (instruction.execute receiver).run.run context with
      | (.ok target?, context) => follow code position instruction target? context
      | (.error fault, context) => .ended (.faulted fault) context

def advance (code : Code V) (receiver : V) : Nat → RunState γ V → RunState γ V
  | 0, state => state
  | _ + 1, .ended outcome context => .ended outcome context
  | steps + 1, .running position context =>
    advance code receiver steps (step code receiver (.running position context))

def Ends (code : Code V) (receiver : V) (state : RunState γ V) (outcome : Outcome V)
    (context : γ) : Prop :=
  ∃ steps, advance code receiver steps state = .ended outcome context

end RunState

def defaultStepLimit : Nat := 1000000

/-- The steps after which a run without a limit is given up. No run that can be waited for takes
as many. -/
def unlimitedSteps : Nat := 0x10000000000000000

namespace Code

variable [ExecutionContext γ V] [ValueLike V]

/-- The outcome and the context after at most `limit` instructions. Running off the end counts
as no instruction, so it is noticed even if the limit is used up. -/
def runWithin (code : Code V) (limit : Nat) (receiver : V) (context : γ) : Outcome V × γ :=
  match RunState.advance code receiver limit (.arrive code 0 context) with
  | .ended outcome context => (outcome, context)
  | .running _ context => (.stepLimit limit limit, context)

def run (code : Code V) (limit? : Option Nat) (receiver : V) (context : γ) : Outcome V × γ :=
  code.runWithin (limit?.getD unlimitedSteps) receiver context

end Code

end LinearIR
