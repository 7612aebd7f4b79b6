import LinearIR.Proofs.StepLimit

/-!
# What a run leaves in the log

A logged frame runs code as the frame does. Each executed instruction leaves its loads in the
order in which it reads, up to the fault if it faults, and otherwise what it writes. So the log
of a run tells how the frame came about.
-/

set_option autoImplicit false

namespace LinearIR

abbrev LoggedFrame := Logged (Frame Value) Value

/-! ## Evaluation -/

namespace Execution

variable {α β : Type} {frame : Frame Value}

/-- The computation leaves the frame as it is and has the given result. It loads the variables in
order. Only a fault that is met before the last of them, so in an operand, makes it load fewer. -/
def Loads (computation : Execution LoggedFrame Value α) (frame : Frame Value)
    (names : List Variable) (result : Except (Fault Value) α) : Prop :=
  ∃ loaded, loaded <+: names ∧
    (loaded = names ∨
      ∃ fault, result = .error fault ∧ ∀ operand found, fault ≠ .notAnArray operand found) ∧
    ∀ earlier, computation.run.run ⟨frame, earlier⟩ =
      (result, ⟨frame, earlier ++ (loaded.map Event.load).toArray⟩)

theorem Loads.silent {computation : Execution LoggedFrame Value α}
    {result : Except (Fault Value) α}
    (runs : ∀ earlier, computation.run.run ⟨frame, earlier⟩ = (result, ⟨frame, earlier⟩)) :
    computation.Loads frame [] result := by
  refine ⟨[], List.nil_prefix, .inl rfl, fun earlier => ?_⟩
  rw [List.map_nil, Array.append_empty, runs]

theorem Loads.pure (value : α) : Loads (Pure.pure value) frame [] (.ok value) :=
  .silent fun _ => rfl

theorem Loads.throw (fault : Fault Value) :
    Loads (throw fault : Execution LoggedFrame Value α) frame [] (.error fault) :=
  .silent fun _ => rfl

theorem loads_buildArray (elements : List Value) (frame : Frame Value) :
    Loads (liftM (ExecutionContext.buildArray (γ := LoggedFrame) elements)) frame []
      (.ok (.array elements)) :=
  .silent fun _ => rfl

theorem loads_load (name : Variable) (frame : Frame Value) :
    Loads (liftM (ExecutionContext.load (γ := LoggedFrame) name)) frame [name]
      (.ok (frame.get? name)) := by
  refine ⟨[name], List.prefix_rfl, .inl rfl, fun earlier => ?_⟩
  rw [List.map_singleton, ← Array.push_eq_append]
  rfl

section

variable {first : Execution LoggedFrame Value α} {next : α → Execution LoggedFrame Value β}
  {names : List Variable} {result : Except (Fault Value) α}
  {result' : α → Except (Fault Value) β}

theorem Loads.bind {names' : List Variable} (firstLoads : first.Loads frame names result)
    (ofOperand : ∀ fault, result = .error fault →
      ∀ operand found, fault ≠ .notAnArray operand found)
    (nextLoads : ∀ value, (next value).Loads frame names' (result' value)) :
    (first >>= next).Loads frame (names ++ names') (result >>= result') := by
  obtain ⟨loaded, isPrefix, whole, runs⟩ := firstLoads
  cases result with
  | error fault =>
      refine ⟨loaded, isPrefix.trans (List.prefix_append names names'),
        .inr ⟨fault, rfl, ofOperand fault rfl⟩, fun earlier => ?_⟩
      rw [run_bind, runs]
      rfl
  | ok value =>
      obtain rfl : loaded = names := whole.resolve_right nofun
      obtain ⟨later, isPrefix', whole', runs'⟩ := nextLoads value
      refine ⟨loaded ++ later, (List.prefix_append_right_inj loaded).mpr isPrefix', ?_,
        fun earlier => ?_⟩
      · exact whole'.imp_left fun all => by rw [all]
      · rw [run_bind, runs]
        dsimp only
        rw [runs', Array.append_assoc, List.map_append, ← List.append_toArray]
        rfl

/-- Behind the last load nothing is cut short, whatever the fault. -/
theorem Loads.bind_silent (firstLoads : first.Loads frame names result)
    (nextLoads : ∀ value, (next value).Loads frame [] (result' value)) :
    (first >>= next).Loads frame names (result >>= result') := by
  obtain ⟨loaded, isPrefix, whole, runs⟩ := firstLoads
  cases result with
  | error fault =>
      refine ⟨loaded, isPrefix, whole.imp_right ?_, fun earlier => ?_⟩
      · rintro ⟨fault', same, ofOperand⟩
        cases same
        exact ⟨fault, rfl, ofOperand⟩
      · rw [run_bind, runs]
        rfl
  | ok value =>
      obtain ⟨later, isPrefix', -, runs'⟩ := nextLoads value
      cases List.prefix_nil.mp isPrefix'
      refine ⟨loaded, isPrefix, .inl (whole.resolve_right nofun), fun earlier => ?_⟩
      rw [run_bind, runs]
      dsimp only
      rw [runs', List.map_nil, Array.append_empty]
      rfl

end

end Execution

namespace Operand

variable (frame : Frame Value) (receiver : Value)

private theorem evaluateAll_loads (elements : List (Operand Value))
    (elementLoads : ∀ element ∈ elements, (element.evaluate (γ := LoggedFrame) receiver).Loads
      frame element.vars (element.valueIn frame receiver)) :
    (evaluateAll (γ := LoggedFrame) receiver elements).Loads frame (elements.flatMap vars)
      (elements.mapM (valueIn · frame receiver)) := by
  induction elements with
  | nil => exact .pure []
  | cons first rest ih =>
      obtain ⟨head, tail⟩ := List.forall_mem_cons.mp elementLoads
      rw [evaluateAll, List.flatMap_cons, List.mapM_cons]
      refine head.bind (fun fault => ne_notAnArray_of_valueIn) fun value => ?_
      exact (ih tail).bind_silent fun values => .pure (value :: values)

/-- An operand loads the variables that it reads, from left to right. -/
theorem evaluate_loads (operand : Operand Value) :
    (operand.evaluate (γ := LoggedFrame) receiver).Loads frame operand.vars
      (operand.valueIn frame receiver) := by
  induction operand using Operand.induction with
  | var name =>
      have sameResult : (Except.ok (frame.get? name) >>= fun found? =>
          found?.elim (.error (.unboundVariable name)) .ok) =
          (var name).valueIn frame receiver := by
        rw [valueIn_var]
        cases frame.get? name <;> rfl
      rw [← sameResult, evaluate, vars]
      refine (Execution.loads_load name frame).bind_silent fun found? => ?_
      cases found? with
      | some value => exact .pure value
      | none => exact .throw (.unboundVariable name)
  | constant value => exact .pure value
  | array elements ih =>
      rw [evaluate, valueIn_array, vars, listVars_eq_flatMap]
      have built := (evaluateAll_loads frame receiver elements ih).bind_silent
        fun values => Execution.loads_buildArray values frame
      have sameResult : (elements.mapM (valueIn · frame receiver) >>= fun values =>
          .ok (Value.array values)) = (elements.mapM (valueIn · frame receiver)).map .array := by
        cases elements.mapM (valueIn · frame receiver) <;> rfl
      exact sameResult ▸ built
  | label name => exact .throw (.labelAsValue name)
  | self => exact .pure receiver

end Operand

/-! ## Instructions -/

/-- What an instruction does in a logged frame before it writes. -/
def Instruction.prepare (receiver : Value) :
    Instruction Value → Execution LoggedFrame Value Effect
  | .copy result source => return .store result (← source.evaluate receiver)
  | .getArray result array index takeRest => do
    let value ← array.evaluate receiver
    match value.extract? index.toNat takeRest with
    | some part => return .store result part
    | none => throw (.notAnArray array value.kind)
  | .label _ => return .skip
  | .jump target => return .goto target
  | .beq first second target => do
    let firstValue ← first.evaluate receiver
    let secondValue ← second.evaluate receiver
    return if firstValue.equals secondValue then .goto target else .skip
  | .ret value => return .ret (← value.evaluate receiver)

def Effect.commit : Effect → Execution LoggedFrame Value (Option Label)
  | .store name value => do
    ExecutionContext.store (γ := LoggedFrame) name value
    return none
  | .skip => return none
  | .goto target => return some target
  | .ret value => do
    ExecutionContext.setReturn (γ := LoggedFrame) value
    return none

def Effect.writes : Effect → List (Event Value)
  | .store name value => [.store name value]
  | .skip | .goto _ => []
  | .ret value => [.setReturn value, .takeReturn]

namespace Instruction

variable {instruction : Instruction Value} {frame : Frame Value} {receiver : Value}

theorem execute_eq_prepare (instruction : Instruction Value) (receiver : Value) :
    instruction.execute (γ := LoggedFrame) receiver =
      instruction.prepare receiver >>= Effect.commit := by
  cases instruction with
  | getArray result array index takeRest =>
      simp only [execute, prepare, bind_assoc]
      congr 1
      funext value
      simp only [ValueLike.extract?]
      cases value.extract? index.toNat takeRest <;> rfl
  | beq first second target =>
      simp only [execute, prepare, bind_assoc, pure_bind, toValue]
      congr 1
      funext firstValue
      congr 1
      funext secondValue
      cases firstValue.equals secondValue <;> rfl
  | copy | ret => simp only [execute, prepare, bind_assoc, pure_bind, Effect.commit]
  | label | jump => rfl

theorem prepare_loads (instruction : Instruction Value) (frame : Frame Value)
    (receiver : Value) :
    (instruction.prepare receiver).Loads frame instruction.reads
      (instruction.effect frame receiver) := by
  have evaluated (operand : Operand Value) := operand.evaluate_loads frame receiver
  cases instruction with
  | copy result source =>
      rw [reads, operands, List.flatMap_singleton]
      exact (evaluated source).bind_silent fun value => .pure (Effect.store result value)
  | getArray result array index takeRest =>
      rw [reads, operands, List.flatMap_singleton]
      refine (evaluated array).bind_silent fun value => ?_
      cases value.extract? index.toNat takeRest with
      | some part => exact .pure (Effect.store result part)
      | none => exact .throw (.notAnArray array value.kind)
  | label name => exact .pure Effect.skip
  | jump target => exact .pure (Effect.goto target)
  | beq first second target =>
      rw [reads, operands, List.flatMap_cons, List.flatMap_singleton]
      refine (evaluated first).bind (fun _ => Operand.ne_notAnArray_of_valueIn) fun firstValue => ?_
      refine (evaluated second).bind_silent fun secondValue => ?_
      exact .pure (if firstValue.equals secondValue then Effect.goto target else Effect.skip)
  | ret operand =>
      rw [reads, operands, List.flatMap_singleton]
      exact (evaluated operand).bind_silent fun value => .pure (Effect.ret value)

def loads (instruction : Instruction Value) : List (Event Value) :=
  instruction.reads.map .load

/-- What an instruction leaves in the log, by what it does. One that does not fault loads all that
it reads and then writes its destination, or returns. Going to a label writes nothing, and all has
been loaded by then even if the label is unknown. One that faults loads a part of what it reads,
and an extraction from no array all of it. -/
inductive Leaves (instruction : Instruction Value) :
    Except (Fault Value) Effect → List (Event Value) → Prop where
  | store {name value} : instruction.result? = some name →
      Leaves instruction (.ok (.store name value)) (instruction.loads ++ [.store name value])
  | skip : instruction.result? = none → instruction.isReturn = false →
      Leaves instruction (.ok .skip) instruction.loads
  | goto {target} : instruction.result? = none → instruction.isReturn = false →
      Leaves instruction (.ok (.goto target)) instruction.loads
  | ret {value} : instruction.result? = none → instruction.isReturn = true →
      Leaves instruction (.ok (.ret value))
        (instruction.loads ++ [.setReturn value, .takeReturn])
  | faulted {fault events} : events <+: instruction.loads →
      (∀ operand found, fault = .notAnArray operand found → events = instruction.loads) →
      Leaves instruction (.error fault) events

theorem Performs.leaves {effect : Effect} (performs : Performs frame receiver instruction effect) :
    instruction.Leaves (.ok effect) (instruction.loads ++ effect.writes) := by
  cases performs with
  | copy | getArray => exact .store rfl
  | label | differ => rw [Effect.writes, List.append_nil]; exact .skip rfl rfl
  | jump | equal => rw [Effect.writes, List.append_nil]; exact .goto rfl rfl
  | ret => exact .ret rfl rfl

end Instruction

/-! ## Steps -/

namespace RunState

/-- The state of the logged run, with what has been logged so far. -/
def logged (events : Array (Event Value)) :
    RunState (Frame Value) Value → RunState LoggedFrame Value
  | .running position frame => .running position ⟨frame, events⟩
  | .ended outcome frame => .ended outcome ⟨frame, events⟩

theorem logged_arrive (code : Code Value) (position : Nat) (frame : Frame Value)
    (events : Array (Event Value)) :
    logged events (arrive code position frame) = arrive code position ⟨frame, events⟩ := by
  unfold arrive
  split <;> rfl

/-- Once an instruction has done its loads, the logged run writes what the run without a log
writes, and goes on where that one does. -/
theorem follow_commit {instruction : Instruction Value} {frame : Frame Value} {receiver : Value}
    {effect : Effect} (performs : instruction.Performs frame receiver effect) (code : Code Value)
    (position : Nat) (earlier : Array (Event Value)) :
    (match effect.commit.run.run ⟨frame, earlier⟩ with
      | (.ok target?, context) => follow code position instruction target? context
      | (.error fault, context) => .ended (.faulted fault) context) =
      logged (earlier ++ effect.writes.toArray) (perform code position frame (.ok effect)) := by
  have isReturn := performs.isReturn_eq
  cases effect with
  | store name value =>
      change follow code position instruction none
        (⟨frame.bind name value, earlier.push (.store name value)⟩ : LoggedFrame) = _
      simp [follow, isReturn, perform, logged_arrive, Effect.writes]
  | skip =>
      change follow code position instruction none (⟨frame, earlier⟩ : LoggedFrame) = _
      simp [follow, isReturn, perform, logged_arrive, Effect.writes]
  | goto target =>
      change follow code position instruction (some target) (⟨frame, earlier⟩ : LoggedFrame) = _
      simp only [follow, perform, Effect.writes, Array.append_empty]
      cases code.labelPosition? target with
      | some next => rw [logged_arrive]
      | none => rfl
  | ret value =>
      change follow code position instruction none
        (⟨frame.setReturn value, earlier.push (.setReturn value)⟩ : LoggedFrame) = _
      simp only [follow, isReturn, if_true]
      change ended (.returned value) (⟨{ frame with pending := none },
        (earlier.push (.setReturn value)).push .takeReturn⟩ : LoggedFrame) = _
      have twice : (earlier.push (.setReturn value)).push .takeReturn =
          earlier ++ [.setReturn value, .takeReturn].toArray := Array.ext' (by simp)
      rw [twice, perform, logged, Effect.writes]

/-- A step leaves in the log what its instruction leaves, and otherwise is the step without a
log. -/
theorem step_logged {code : Code Value} {position : Nat} {instruction : Instruction Value}
    (found : code[position]? = some instruction) (receiver : Value) (frame : Frame Value) :
    ∃ events, instruction.Leaves (instruction.effect frame receiver) events ∧
      ∀ earlier, step code receiver (logged earlier (.running position frame)) =
        logged (earlier ++ events.toArray) (step code receiver (.running position frame)) := by
  obtain ⟨loaded, isPrefix, whole, runs⟩ := instruction.prepare_loads frame receiver
  have executed (earlier : Array (Event Value)) :=
    Execution.run_bind (instruction.prepare receiver) Effect.commit ⟨frame, earlier⟩
  simp only [← Instruction.execute_eq_prepare, runs] at executed
  rw [step_running found]
  cases performed : instruction.effect frame receiver with
  | error fault =>
      refine ⟨loaded.map .load, .faulted (isPrefix.map Event.load) ?_, fun earlier => ?_⟩
      · intro operand kind notAnArray
        rcases whole with all | ⟨fault', same, ofOperand⟩
        · rw [all, Instruction.loads]
        · rw [performed] at same
          cases same
          exact absurd notAnArray (ofOperand operand kind)
      · simp only [logged, step, found, executed, performed, perform]
  | ok effect =>
      obtain rfl : loaded = instruction.reads := whole.resolve_right (by simp [performed])
      have performs := Instruction.effect_eq_ok_iff.mp performed
      refine ⟨instruction.loads ++ effect.writes, performs.leaves, fun earlier => ?_⟩
      have committed := follow_commit performs code position (earlier ++ instruction.loads.toArray)
      rw [← List.append_toArray, ← Array.append_assoc, ← committed]
      simp only [logged, step, found, executed, performed, Instruction.loads]
      rcases effect.commit.run.run _ with ⟨_ | _, _⟩ <;> rfl

/-! ## Runs -/

/-- A run between two states with what it logs, one part for each executed instruction. -/
inductive Traces (code : Code Value) (receiver : Value) :
    RunState (Frame Value) Value → List (List (Event Value)) → RunState (Frame Value) Value →
      Prop where
  | none {state} : Traces code receiver state [] state
  | next {position frame instruction events log last} :
      code[position]? = some instruction →
      instruction.Leaves (instruction.effect frame receiver) events →
      Traces code receiver (step code receiver (.running position frame)) log last →
      Traces code receiver (.running position frame) (events :: log) last

variable {code : Code Value} {receiver : Value} {first last : RunState (Frame Value) Value}

theorem Traces.executes {log : List (List (Event Value))}
    (traces : Traces code receiver first log last) :
    Executes code receiver log.length first last := by
  induction traces with
  | none => exact .none
  | next found leaves rest ih => exact .next found ih

theorem Executes.logged {count : Nat} (executes : Executes code receiver count first last) :
    ∀ earlier, ∃ events, Executes code receiver count (first.logged earlier)
      (last.logged events) := by
  induction executes with
  | none => exact fun earlier => ⟨earlier, .none⟩
  | next found rest ih =>
      intro earlier
      obtain ⟨events, -, stepped⟩ := step_logged found receiver _
      obtain ⟨logged, following⟩ := ih (earlier ++ events.toArray)
      rw [← stepped] at following
      exact ⟨logged, .next found following⟩

theorem Executes.of_logged {count : Nat} {earlier : Array (Event Value)}
    {last : RunState LoggedFrame Value}
    (executes : Executes code receiver count (first.logged earlier) last) :
    ∃ log plain, Traces code receiver first log plain ∧ log.length = count ∧
      last = plain.logged (earlier ++ log.flatten.toArray) := by
  generalize start : first.logged earlier = state at executes
  induction executes generalizing first earlier with
  | none =>
      refine ⟨[], first, .none, rfl, ?_⟩
      rw [← start, List.flatten_nil, Array.append_empty]
  | next found rest ih =>
      cases first with
      | ended outcome frame => cases start
      | running position frame =>
          cases start
          obtain ⟨events, leaves, stepped⟩ := step_logged found receiver frame
          obtain ⟨log, plain, traces, length, same⟩ := ih (stepped earlier).symm
          refine ⟨events :: log, plain, .next found leaves traces,
            by rw [List.length_cons, length], ?_⟩
          rw [same, Array.append_assoc, List.append_toArray events, ← List.flatten_cons]

end RunState

/-! ## Replaying a log -/

/-- Whether the call belongs to a return. -/
def Event.returns {V : Type} : Event V → Bool
  | .setReturn _ | .takeReturn => true
  | .load _ | .store .. => false

def Frame.redo {V : Type} (frame : Frame V) : Event V → Frame V
  | .store name value => frame.bind name value
  | .load _ | .setReturn _ | .takeReturn => frame

/-- The frame after the stores of a log, which are done again one after the other. -/
def Frame.replay {V : Type} (frame : Frame V) (events : List (Event V)) : Frame V :=
  events.foldl redo frame

theorem Frame.replay_append {V : Type} (frame : Frame V) (earlier later : List (Event V)) :
    frame.replay (earlier ++ later) = (frame.replay earlier).replay later :=
  List.foldl_append

theorem Frame.replay_of_not_stored {V : Type} (frame : Frame V) {events : List (Event V)}
    (notStored : ∀ event ∈ events, ∀ name value, event ≠ .store name value) :
    frame.replay events = frame := by
  induction events with
  | nil => rfl
  | cons event rest ih =>
      obtain ⟨head, tail⟩ := List.forall_mem_cons.mp notStored
      cases event with
      | store name value => exact absurd rfl (head name value)
      | load | setReturn | takeReturn => exact ih tail

namespace RunState

def context {γ V : Type} : RunState γ V → γ
  | .running _ context | .ended _ context => context

def hasReturned {γ V : Type} : RunState γ V → Bool
  | .ended (.returned _) _ => true
  | _ => false

/-- How a log accounts for the state that a frame has come to. Before a return it holds nothing
but loads and stores, and these stores have made the frame. -/
inductive Accounts (frame : Frame Value) (events : List (Event Value)) :
    RunState (Frame Value) Value → Prop where
  | kept {state} : state.hasReturned = false → (∀ event ∈ events, event.returns = false) →
      state.context = frame.replay events → Accounts frame events state
  | returned {value earlier} : events = earlier ++ [.setReturn value, .takeReturn] →
      (∀ event ∈ earlier, event.returns = false) →
      Accounts frame events
        (.ended (.returned value) { frame.replay earlier with pending := none })

theorem hasReturned_arrive {γ V : Type} (code : Code V) (position : Nat) (context : γ) :
    (arrive code position context).hasReturned = false := by
  unfold arrive
  split <;> rfl

theorem context_arrive {γ V : Type} (code : Code V) (position : Nat) (context : γ) :
    (arrive code position context).context = context := by
  unfold arrive
  split <;> rfl

variable {code : Code Value} {receiver : Value} {first last : RunState (Frame Value) Value}

/-- The step lemma: the state behind an instruction is accounted for by what the instruction
leaves in the log. -/
theorem perform_accounts {instruction : Instruction Value} {effect : Except (Fault Value) Effect}
    {events : List (Event Value)} (leaves : instruction.Leaves effect events)
    (code : Code Value) (position : Nat) (frame : Frame Value) :
    Accounts frame events (perform code position frame effect) := by
  have onlyLoads {loads : List (Event Value)} (isPrefix : loads <+: instruction.loads) :
      (∀ event ∈ loads, event.returns = false) ∧ frame.replay loads = frame := by
    have isLoad (event : Event Value) (member : event ∈ loads) : ∃ name, event = .load name := by
      obtain ⟨name, -, same⟩ := List.mem_map.mp (isPrefix.subset member)
      exact ⟨name, same.symm⟩
    constructor
    · intro event member
      obtain ⟨name, rfl⟩ := isLoad event member
      rfl
    · refine frame.replay_of_not_stored fun event member name value stored => ?_
      obtain ⟨read, rfl⟩ := isLoad event member
      cases stored
  obtain ⟨quiet, unchanged⟩ := onlyLoads List.prefix_rfl
  cases leaves with
  | store destination =>
      refine .kept (hasReturned_arrive code _ _) ?_ ?_
      · simpa [or_imp, forall_and, Event.returns] using quiet
      · rw [perform, context_arrive, Frame.replay_append, unchanged]
        rfl
  | skip =>
      refine .kept (hasReturned_arrive code _ _) quiet ?_
      rw [perform, context_arrive, unchanged]
  | @goto target =>
      cases found : code.labelPosition? target with
      | some next =>
          simp only [perform, found]
          exact .kept (hasReturned_arrive code _ _) quiet (by rw [context_arrive, unchanged])
      | none =>
          simp only [perform, found]
          exact .kept rfl quiet unchanged.symm
  | @ret value =>
      have returned : Accounts frame (instruction.loads ++ [.setReturn value, .takeReturn])
          (.ended (.returned value) { frame.replay instruction.loads with pending := none }) :=
        .returned rfl quiet
      rwa [unchanged] at returned
  | faulted isPrefix whole =>
      obtain ⟨quiet, unchanged⟩ := onlyLoads isPrefix
      exact .kept rfl quiet unchanged.symm

theorem Accounts.trans {frame : Frame Value} {events later : List (Event Value)}
    {state last : RunState (Frame Value) Value} (accounts : Accounts frame events state)
    (going : state.hasReturned = false) (following : Accounts state.context later last) :
    Accounts frame (events ++ later) last := by
  cases accounts with
  | returned => cases going
  | kept _ quiet same =>
      rw [same] at following
      have bothQuiet {more : List (Event Value)}
          (moreQuiet : ∀ event ∈ more, event.returns = false) :
          ∀ event ∈ events ++ more, event.returns = false := fun event member =>
        (List.mem_append.mp member).elim (quiet event) (moreQuiet event)
      cases following with
      | kept notReturned laterQuiet same' =>
          refine .kept notReturned (bothQuiet laterQuiet) ?_
          rw [same', Frame.replay_append]
      | returned split earlierQuiet =>
          rw [← Frame.replay_append]
          refine .returned ?_ (bothQuiet earlierQuiet)
          rw [split, List.append_assoc]

/-- The run lemma: a log accounts for the frame at every state of its run. -/
theorem Traces.accounts {log : List (List (Event Value))}
    (traces : Traces code receiver first log last) (going : first.hasReturned = false) :
    Accounts first.context log.flatten last := by
  induction traces with
  | none => exact .kept going (by simp) rfl
  | @next position frame instruction events log last found leaves rest ih =>
      have accounts := perform_accounts leaves code position frame
      rw [← step_running found] at accounts
      rw [List.flatten_cons]
      cases returned : (step code receiver (.running position frame)).hasReturned with
      | false => exact accounts.trans returned (ih returned)
      | true =>
          -- Nothing follows a return.
          generalize step code receiver (.running position frame) = state at *
          cases rest with
          | none => rwa [List.flatten_nil, List.append_nil]
          | next => cases returned

end RunState

namespace Code

variable {code : Code Value} {limit? : Option Nat} {receiver : Value} {frame final : Frame Value}
  {outcome : Outcome Value}

theorem RunsTo.logged (ran : code.RunsTo limit? receiver frame outcome final) :
    ∃ events, code.RunsTo limit? receiver (Logged.ofContext frame : LoggedFrame) outcome
      ⟨final, events⟩ := by
  obtain ⟨count, last, executes, stops⟩ := runsTo_iff_executes.mp ran
  obtain ⟨events, executes⟩ := executes.logged #[]
  rw [RunState.logged_arrive] at executes
  refine ⟨events, runsTo_iff_executes.mpr ⟨count, _, executes, ?_⟩⟩
  cases stops with
  | ended within => exact .ended within
  | cut same => exact .cut same

theorem RunsTo.traces {events : Array (Event Value)}
    (ran : code.RunsTo limit? receiver (Logged.ofContext frame : LoggedFrame) outcome
      ⟨final, events⟩) :
    ∃ log last, RunState.Traces code receiver (.arrive code 0 frame) log last ∧
      last.Stops limit? log.length outcome final ∧ events.toList = log.flatten := by
  obtain ⟨count, last, executes, stops⟩ := runsTo_iff_executes.mp ran
  have start := RunState.logged_arrive code 0 frame #[]
  rw [Logged.ofContext, ← start] at executes
  obtain ⟨log, plain, traces, rfl, rfl⟩ := executes.of_logged
  refine ⟨log, plain, traces, ?_⟩
  cases plain with
  | running position cut =>
      cases stops with
      | cut same => exact ⟨.cut same, by simp⟩
  | ended outcome frame =>
      cases stops with
      | ended within => exact ⟨.ended within, by simp⟩

/-- The log of a run accounts for the run. A logged run ends as the run on the frame does, and if
one of them does not end, neither does the other. The log consists of what each executed
instruction leaves, one after the other. Only a return puts a value aside and takes it, at the
end of the run, and the stores of the log lead from the first frame to the last one. A value that
was pending from the beginning is left alone, unless the run returns: it is gone then. -/
theorem logged_run_accounts (code : Code Value) (limit? : Option Nat) (receiver : Value)
    (frame : Frame Value) :
    (∀ outcome final, code.RunsTo limit? receiver frame outcome final ↔ ∃ events,
      code.RunsTo limit? receiver (Logged.ofContext frame : LoggedFrame) outcome
        ⟨final, events⟩) ∧
    ∀ outcome final events,
      code.RunsTo limit? receiver (Logged.ofContext frame : LoggedFrame) outcome
        ⟨final, events⟩ →
      (∃ log last, RunState.Traces code receiver (.arrive code 0 frame) log last ∧
        last.Stops limit? log.length outcome final ∧ events.toList = log.flatten) ∧
      ((∀ value, outcome ≠ .returned value) →
        (∀ event ∈ events.toList, event.returns = false) ∧ final = frame.replay events.toList) ∧
      ∀ value, outcome = .returned value →
        (∃ earlier, events.toList = earlier ++ [.setReturn value, .takeReturn] ∧
          ∀ event ∈ earlier, event.returns = false) ∧
        final = { frame.replay events.toList with pending := none } := by
  refine ⟨fun outcome final => ⟨RunsTo.logged, ?_⟩, fun outcome final events ran => ?_⟩
  · intro ran
    obtain ⟨events, ran⟩ := ran
    obtain ⟨log, last, traces, stops, -⟩ := ran.traces
    exact runsTo_iff_executes.mpr ⟨log.length, last, traces.executes, stops⟩
  · obtain ⟨log, last, traces, stops, same⟩ := ran.traces
    have accounts := traces.accounts (RunState.hasReturned_arrive code 0 frame)
    rw [RunState.context_arrive, ← same] at accounts
    refine ⟨⟨log, last, traces, stops, same⟩, ?_, ?_⟩
    · intro notReturned
      cases accounts with
      | kept _ quiet kept =>
          cases stops with
          | ended within => exact ⟨quiet, kept⟩
          | cut limited => exact ⟨quiet, kept⟩
      | returned =>
          cases stops with
          | ended within => exact absurd rfl (notReturned _)
    · rintro value rfl
      cases stops with
      | ended within =>
          cases accounts with
          | kept going => cases going
          | returned split quiet =>
              refine ⟨⟨_, split, quiet⟩, ?_⟩
              rw [split, Frame.replay_append]
              rfl

/-- Two elements read one variable twice, and the array that is built from them is taken apart
again. -/
def pairUp : Code Value := [
  .copy ⟨"pair"⟩ (.array [.var ⟨"y"⟩, .var ⟨"y"⟩]),
  .getArray ⟨"first"⟩ (.var ⟨"pair"⟩) 0 false,
  .ret (.array [.var ⟨"first"⟩, .var ⟨"pair"⟩])]

theorem pairUp_accounts :
    ∃ final events,
      pairUp.RunsTo (some 3) .nil
        (Logged.ofContext (Frame.empty.bind ⟨"y"⟩ .nil) : LoggedFrame)
        (.returned (.array [.nil, .array [.nil, .nil]])) ⟨final, events⟩ ∧
      final = { (Frame.empty.bind ⟨"y"⟩ .nil).replay events.toList with pending := none } := by
  have ran : pairUp.RunsTo (some 3) .nil
      (Logged.ofContext (Frame.empty.bind ⟨"y"⟩ .nil) : LoggedFrame)
      (.returned (.array [.nil, .array [.nil, .nil]]))
      ⟨((Frame.empty.bind ⟨"y"⟩ .nil).bind ⟨"pair"⟩ (.array [.nil, .nil])).bind ⟨"first"⟩ .nil,
        #[.load ⟨"y"⟩, .load ⟨"y"⟩, .store ⟨"pair"⟩ (.array [.nil, .nil]),
          .load ⟨"pair"⟩, .store ⟨"first"⟩ .nil,
          .load ⟨"first"⟩, .load ⟨"pair"⟩,
          .setReturn (.array [.nil, .array [.nil, .nil]]), .takeReturn]⟩ := rfl
  exact ⟨_, _, ran, ((logged_run_accounts pairUp (some 3) .nil _).2 _ _ _ ran).2.2 _ rfl |>.2⟩

/-- A return takes the value that it has put aside, and one that was pending before is lost. No
store tells of that. -/
theorem pendingReturn_not_replayed :
    ∃ events,
      RunsTo [.ret (.constant (.scalar (.str "new")))] none .nil
        (Logged.ofContext (Frame.empty.setReturn (.scalar (.str "stale"))) : LoggedFrame)
        (.returned (.scalar (.str "new"))) ⟨Frame.empty, events⟩ ∧
      Frame.empty ≠ (Frame.empty.setReturn (.scalar (.str "stale"))).replay events.toList := by
  refine ⟨#[.setReturn (.scalar (.str "new")), .takeReturn], ⟨1, rfl⟩, fun replayed => ?_⟩
  cases congrArg Frame.pending replayed

end Code

end LinearIR
