import LinearIR.Execution.Run

/-!
# Evaluation in a frame

A plain frame is only read while operands are evaluated, so an operand has a value in a frame.
What an instruction does is then one effect, which depends on the values of its operands alone,
and every step of a run performs the effect of the instruction at its position.
-/

set_option autoImplicit false

namespace LinearIR

namespace Execution

variable {γ V α β : Type}

theorem run_bind (first : Execution γ V α) (next : α → Execution γ V β) (context : γ) :
    (first >>= next).run.run context =
      match first.run.run context with
      | (.ok result, after) => (next result).run.run after
      | (.error fault, after) => (.error fault, after) := by
  rw [ExceptT.run_bind, StateT.run_bind]
  rcases first.run.run context with ⟨_ | _, after⟩ <;> rfl

theorem exists_of_bind {first : Execution γ V α} {next : α → Execution γ V β} {context after : γ}
    {result : β} (succeeded : (first >>= next).run.run context = (.ok result, after)) :
    ∃ middle between, first.run.run context = (.ok middle, between) ∧
      (next middle).run.run between = (.ok result, after) := by
  rw [run_bind] at succeeded
  split at succeeded
  · next middle between ran => exact ⟨middle, between, ran, succeeded⟩
  · cases succeeded

theorem run_pure (result : α) (context : γ) :
    (pure result : Execution γ V α).run.run context = (.ok result, context) := rfl

theorem run_load (name : Variable) (frame : Frame Value) :
    (liftM (ExecutionContext.load (γ := Frame Value) name) :
      Execution (Frame Value) Value (Option Value)).run.run frame =
      (.ok (frame.get? name), frame) := rfl

end Execution

theorem Frame.get?_bind (frame : Frame Value) (stored name : Variable) (value : Value) :
    (frame.bind stored value).get? name = if name = stored then some value else frame.get? name :=
  Bindings.get?_insert frame.locals stored name value

theorem Frame.get?_bind_self (frame : Frame Value) (name : Variable) (value : Value) :
    (frame.bind name value).get? name = some value := by
  simp [Frame.get?_bind]

theorem Frame.get?_bind_of_ne (frame : Frame Value) {stored name : Variable}
    (differs : name ≠ stored) (value : Value) :
    (frame.bind stored value).get? name = frame.get? name := by
  simp [Frame.get?_bind, differs]

theorem Except.exists_ok_of_bind {ε α β : Type} {first : Except ε α} {next : α → Except ε β}
    {result : β} (succeeded : first >>= next = .ok result) :
    ∃ middle, first = .ok middle ∧ next middle = .ok result := by
  cases first with
  | error error => cases succeeded
  | ok middle => exact ⟨middle, rfl, succeeded⟩

theorem Except.exists_ok_of_map {ε α β : Type} {computed : Except ε α} {convert : α → β}
    {result : β} (succeeded : computed.map convert = .ok result) :
    ∃ middle, computed = .ok middle ∧ convert middle = result := by
  cases computed with
  | error error => cases succeeded
  | ok middle => exact ⟨middle, rfl, Except.ok.inj succeeded⟩

theorem Except.mapM_congr {ε α β : Type} {first second : α → Except ε β} {elements : List α}
    (agree : ∀ element ∈ elements, first element = second element) :
    elements.mapM first = elements.mapM second := by
  induction elements with
  | nil => rfl
  | cons element rest ih =>
      obtain ⟨head, tail⟩ := List.forall_mem_cons.mp agree
      rw [List.mapM_cons, List.mapM_cons, head, ih tail]

theorem Except.exists_error_of_mapM {ε α β : Type} {compute : α → Except ε β} {elements : List α}
    {error : ε} (failed : elements.mapM compute = .error error) :
    ∃ element ∈ elements, compute element = .error error := by
  induction elements with
  | nil => cases failed
  | cons element rest ih =>
      rw [List.mapM_cons] at failed
      cases computed : compute element with
      | error first =>
          rw [computed] at failed
          cases failed
          exact ⟨element, List.mem_cons_self, computed⟩
      | ok result =>
          cases others : rest.mapM compute with
          | error later =>
              rw [computed, others] at failed
              cases failed
              obtain ⟨failing, member, failure⟩ := ih others
              exact ⟨failing, List.mem_cons_of_mem _ member, failure⟩
          | ok results => rw [computed, others] at failed; cases failed

theorem Except.mapM_eq_ok_iff {ε α β : Type} {compute : α → Except ε β} {elements : List α}
    {results : List β} :
    elements.mapM compute = .ok results ↔ elements.map compute = results.map .ok := by
  induction elements generalizing results with
  | nil => cases results <;> simp [pure, Except.pure]
  | cons element rest ih =>
      rw [List.mapM_cons]
      cases computed : compute element with
      | error error =>
          cases results <;> simp [computed, bind, Except.bind]
      | ok result =>
          cases results with
          | nil => cases rest.mapM compute <;> simp [bind, Except.bind, pure, Except.pure]
          | cons expected others =>
              simp only [List.map_cons, computed, List.cons.injEq, Except.ok.injEq, ← ih]
              cases rest.mapM compute <;> simp [bind, Except.bind, pure, Except.pure]

theorem Except.exists_ok_of_mapM {ε α β : Type} {compute : α → Except ε β} {elements : List α}
    {results : List β} (succeeded : elements.mapM compute = .ok results) {element : α}
    (member : element ∈ elements) : ∃ result, compute element = .ok result := by
  have mapped : compute element ∈ results.map Except.ok := by
    rw [← Except.mapM_eq_ok_iff.mp succeeded]
    exact List.mem_map_of_mem member
  obtain ⟨result, -, same⟩ := List.mem_map.mp mapped
  exact ⟨result, same.symm⟩

theorem Except.mapM_drop {ε α β : Type} {compute : α → Except ε β} {elements : List α}
    {results : List β} (succeeded : elements.mapM compute = .ok results) (count : Nat) :
    (elements.drop count).mapM compute = .ok (results.drop count) := by
  rw [Except.mapM_eq_ok_iff, List.map_drop, List.map_drop, Except.mapM_eq_ok_iff.mp succeeded]

theorem Except.getElem?_of_mapM {ε α β : Type} {compute : α → Except ε β} {elements : List α}
    {results : List β} (succeeded : elements.mapM compute = .ok results) (index : Nat) :
    elements[index]?.map compute = results[index]?.map .ok := by
  rw [← List.getElem?_map, ← List.getElem?_map, Except.mapM_eq_ok_iff.mp succeeded]

/-- Results that stand for their elements compute what the elements compute. -/
theorem Except.mapM_transfer {ε ε' α β γ : Type} {convert : α → Except ε β}
    {compute : α → Except ε' γ} {compute' : β → Except ε' γ} {elements : List α} {results : List β}
    {values : List γ} (converted : elements.mapM convert = .ok results)
    (computed : elements.mapM compute = .ok values)
    (agree : ∀ element ∈ elements, ∀ result value, convert element = .ok result →
      compute element = .ok value → compute' result = .ok value) :
    results.mapM compute' = .ok values := by
  induction elements generalizing results values with
  | nil => cases converted; cases computed; rfl
  | cons element rest ih =>
      rw [List.mapM_cons] at converted computed
      obtain ⟨result, firstConverted, converted⟩ := Except.exists_ok_of_bind converted
      obtain ⟨others, restConverted, same⟩ := Except.exists_ok_of_bind converted
      cases same
      obtain ⟨value, firstComputed, computed⟩ := Except.exists_ok_of_bind computed
      obtain ⟨otherValues, restComputed, same⟩ := Except.exists_ok_of_bind computed
      cases same
      obtain ⟨first, later⟩ := List.forall_mem_cons.mp agree
      rw [List.mapM_cons, first result value firstConverted firstComputed,
        ih restConverted restComputed later]
      rfl

namespace Operand

/-- The value of an operand in a frame, or the fault met first. -/
def valueIn (operand : Operand Value) (frame : Frame Value) (receiver : Value) :
    Except (Fault Value) Value :=
  ((operand.evaluate (γ := Frame Value) receiver).run.run frame).1

section

variable (frame : Frame Value) (receiver : Value)

private theorem evaluateAll_run (elements : List (Operand Value))
    (elementRuns : ∀ element ∈ elements,
      (element.evaluate (γ := Frame Value) receiver).run.run frame =
        (element.valueIn frame receiver, frame)) :
    (evaluateAll (γ := Frame Value) receiver elements).run.run frame =
      (elements.mapM (valueIn · frame receiver), frame) := by
  induction elements with
  | nil => rfl
  | cons element rest ih =>
      obtain ⟨head, tail⟩ := List.forall_mem_cons.mp elementRuns
      rw [evaluateAll, Execution.run_bind, head, List.mapM_cons]
      cases element.valueIn frame receiver with
      | error fault => rfl
      | ok value =>
          simp only [Execution.run_bind, ih tail]
          cases rest.mapM (valueIn · frame receiver) <;> rfl

theorem evaluate_run (operand : Operand Value) :
    (operand.evaluate (γ := Frame Value) receiver).run.run frame =
      (operand.valueIn frame receiver, frame) := by
  induction operand using Operand.induction with
  | var name =>
      simp only [valueIn, evaluate, Execution.run_bind, Execution.run_load]
      cases frame.get? name <;> rfl
  | constant value => rfl
  | array elements ih =>
      rw [valueIn, evaluate, Execution.run_bind, evaluateAll_run frame receiver elements ih]
      cases elements.mapM (valueIn · frame receiver) <;> rfl
  | label name => rfl
  | self => rfl

theorem valueIn_var (name : Variable) :
    (var name).valueIn frame receiver =
      match frame.get? name with
      | some value => .ok value
      | none => .error (.unboundVariable name) := by
  simp only [valueIn, evaluate, Execution.run_bind, Execution.run_load]
  cases frame.get? name <;> rfl

@[simp]
theorem valueIn_constant (value : Value) :
    (constant value).valueIn frame receiver = .ok value := rfl

@[simp]
theorem valueIn_array (elements : List (Operand Value)) :
    (array elements).valueIn frame receiver =
      (elements.mapM (valueIn · frame receiver)).map .array := by
  have elementsRun := evaluateAll_run frame receiver elements fun element _ =>
    evaluate_run frame receiver element
  rw [valueIn, evaluate, Execution.run_bind, elementsRun]
  cases elements.mapM (valueIn · frame receiver) <;> rfl

@[simp]
theorem valueIn_label (name : Label) :
    (label name).valueIn frame receiver = .error (.labelAsValue name) := rfl

@[simp]
theorem valueIn_self : self.valueIn frame receiver = .ok receiver := rfl

end

theorem ne_notAnArray_of_valueIn {operand : Operand Value} {frame : Frame Value}
    {receiver : Value} {fault : Fault Value}
    (faulted : operand.valueIn frame receiver = .error fault) (named : Operand Value)
    (found : Kind) : fault ≠ .notAnArray named found := by
  induction operand using Operand.induction generalizing fault with
  | var name =>
      rw [valueIn_var] at faulted
      split at faulted <;> cases faulted
      nofun
  | constant value => cases faulted
  | array elements ih =>
      rw [valueIn_array] at faulted
      cases evaluated : elements.mapM (valueIn · frame receiver) with
      | ok values => simp [evaluated, Except.map] at faulted
      | error first =>
          simp only [evaluated, Except.map, Except.error.injEq] at faulted
          subst faulted
          obtain ⟨element, member, elementFaulted⟩ := Except.exists_error_of_mapM evaluated
          exact ih element member elementFaulted
  | label name => cases faulted; nofun
  | self => cases faulted

theorem valueIn_congr {operand : Operand Value} {first second : Frame Value} (receiver : Value)
    (agree : ∀ name ∈ operand.vars, first.get? name = second.get? name) :
    operand.valueIn first receiver = operand.valueIn second receiver := by
  induction operand using Operand.induction with
  | var name => rw [valueIn_var, valueIn_var, agree name (by simp [vars])]
  | constant value => rfl
  | array elements ih =>
      rw [valueIn_array, valueIn_array]
      congr 1
      refine Except.mapM_congr fun element member => ih element member fun name read => ?_
      exact agree name (by simpa [vars] using ⟨element, member, read⟩)
  | label name => rfl
  | self => rfl

end Operand

/-- What an instruction does if none of its operands faults. -/
inductive Effect where
  | store (name : Variable) (value : Value)
  | skip
  | goto (target : Label)
  | ret (value : Value)

def Instruction.effect (frame : Frame Value) (receiver : Value) :
    Instruction Value → Except (Fault Value) Effect
  | .copy result source => return .store result (← source.valueIn frame receiver)
  | .getArray result array index takeRest => do
    let value ← array.valueIn frame receiver
    match value.extract? index.toNat takeRest with
    | some part => return .store result part
    | none => throw (.notAnArray array value.kind)
  | .label _ => return .skip
  | .jump target => return .goto target
  | .beq first second target => do
    let firstValue ← first.valueIn frame receiver
    let secondValue ← second.valueIn frame receiver
    return if firstValue.equals secondValue then .goto target else .skip
  | .ret value => return .ret (← value.valueIn frame receiver)

namespace Instruction

/-- The effects of instructions, by the values of their operands. -/
inductive Performs (frame : Frame Value) (receiver : Value) :
    Instruction Value → Effect → Prop where
  | copy {result source value} :
      source.valueIn frame receiver = .ok value →
      Performs frame receiver (.copy result source) (.store result value)
  | getArray {result array index takeRest whole part} :
      array.valueIn frame receiver = .ok whole →
      whole.extract? index.toNat takeRest = some part →
      Performs frame receiver (.getArray result array index takeRest) (.store result part)
  | label {name} : Performs frame receiver (.label name) .skip
  | jump {target} : Performs frame receiver (.jump target) (.goto target)
  | equal {first second target firstValue secondValue} :
      first.valueIn frame receiver = .ok firstValue →
      second.valueIn frame receiver = .ok secondValue →
      firstValue.equals secondValue = true →
      Performs frame receiver (.beq first second target) (.goto target)
  | differ {first second target firstValue secondValue} :
      first.valueIn frame receiver = .ok firstValue →
      second.valueIn frame receiver = .ok secondValue →
      firstValue.equals secondValue = false →
      Performs frame receiver (.beq first second target) .skip
  | ret {operand value} :
      operand.valueIn frame receiver = .ok value →
      Performs frame receiver (.ret operand) (.ret value)

variable {instruction : Instruction Value} {frame : Frame Value} {receiver : Value}
  {effect : Effect}

theorem effect_eq_ok_iff :
    instruction.effect frame receiver = .ok effect ↔
      Performs frame receiver instruction effect := by
  constructor
  · intro performed
    cases instruction with
    | copy result source =>
        obtain ⟨value, evaluated, same⟩ := Except.exists_ok_of_bind performed
        cases same
        exact .copy evaluated
    | getArray result array index takeRest =>
        obtain ⟨whole, evaluated, extracted⟩ := Except.exists_ok_of_bind performed
        split at extracted
        · next part found =>
          cases extracted
          exact .getArray evaluated found
        · cases extracted
    | label name => cases performed; exact .label
    | jump target => cases performed; exact .jump
    | beq first second target =>
        obtain ⟨firstValue, firstEvaluated, compared⟩ := Except.exists_ok_of_bind performed
        obtain ⟨secondValue, secondEvaluated, decided⟩ := Except.exists_ok_of_bind compared
        split at decided
        · next same =>
          cases decided
          exact .equal firstEvaluated secondEvaluated same
        · next differs =>
          cases decided
          exact .differ firstEvaluated secondEvaluated (Bool.eq_false_iff.mpr differs)
    | ret operand =>
        obtain ⟨value, evaluated, same⟩ := Except.exists_ok_of_bind performed
        cases same
        exact .ret evaluated
  · intro performs
    cases performs <;> simp [Instruction.effect, bind, Except.bind, pure, Except.pure, *]

theorem Performs.isReturn_eq (performs : Performs frame receiver instruction effect) :
    instruction.isReturn = match effect with
      | .ret _ => true
      | .store .. | .skip | .goto _ => false := by
  cases performs <;> rfl

theorem Performs.result?_eq {name : Variable} {value : Value}
    (performs : Performs frame receiver instruction (.store name value)) :
    instruction.result? = some name := by
  cases performs <;> rfl

theorem Performs.transfersControl_eq_false {name : Variable} {value : Value}
    (performs : Performs frame receiver instruction (.store name value)) :
    instruction.transfersControl = false := by
  cases performs <;> rfl

theorem effect_congr {first second : Frame Value}
    (agree : ∀ name ∈ instruction.reads, first.get? name = second.get? name) :
    instruction.effect first receiver = instruction.effect second receiver := by
  have sameValue : ∀ operand ∈ instruction.operands,
      operand.valueIn first receiver = operand.valueIn second receiver := by
    intro operand member
    apply Operand.valueIn_congr
    intro name read
    exact agree name (List.mem_flatMap.mpr ⟨operand, member, read⟩)
  cases instruction with
  | copy | getArray | beq | ret => simp_all [effect, operands]
  | label | jump => rfl

end Instruction

namespace Effect

/-- Where control is sent, if it does not go on to the next instruction. -/
def goesTo? : Effect → Option Label
  | .goto target => some target
  | .store .. | .skip | .ret _ => none

/-- The frame that is left. A returned value is pending until the run takes it. -/
def applyTo (frame : Frame Value) : Effect → Frame Value
  | .store name value => frame.bind name value
  | .skip | .goto _ => frame
  | .ret value => frame.setReturn value

end Effect

namespace Instruction

/-- Executing an instruction on a frame. A fault leaves the frame as it was. -/
def executeOn (frame : Frame Value) (receiver : Value) (instruction : Instruction Value) :
    Except (Fault Value) (Option Label) × Frame Value :=
  (instruction.execute receiver).run.run frame

theorem executeOn_eq (instruction : Instruction Value) (frame : Frame Value) (receiver : Value) :
    instruction.executeOn frame receiver =
      match instruction.effect frame receiver with
      | .ok effect => (.ok effect.goesTo?, effect.applyTo frame)
      | .error fault => (.error fault, frame) := by
  unfold executeOn
  cases instruction with
  | copy result source =>
      simp only [execute, effect, Execution.run_bind, Operand.evaluate_run]
      cases source.valueIn frame receiver <;> rfl
  | getArray result array index takeRest =>
      simp only [execute, effect, Execution.run_bind, Operand.evaluate_run]
      cases array.valueIn frame receiver with
      | error fault => rfl
      | ok value =>
          simp only [ValueLike.extract?, bind, Except.bind]
          cases value.extract? index.toNat takeRest <;> rfl
  | label name => rfl
  | jump target => rfl
  | beq first second target =>
      simp only [execute, effect, Execution.run_bind, Operand.evaluate_run]
      cases first.valueIn frame receiver with
      | error fault => rfl
      | ok firstValue =>
          simp only [bind, Except.bind]
          cases second.valueIn frame receiver with
          | error fault => rfl
          | ok secondValue =>
              simp only [toValue, Execution.run_pure]
              cases firstValue.equals secondValue <;> rfl
  | ret value =>
      simp only [execute, effect, Execution.run_bind, Operand.evaluate_run]
      cases value.valueIn frame receiver <;> rfl

end Instruction

namespace RunState

/-- Where a run continues after the instruction at a position. A fault changes nothing. -/
def perform (code : Code Value) (position : Nat) (frame : Frame Value) :
    Except (Fault Value) Effect → RunState (Frame Value) Value
  | .ok (.store name value) => arrive code (position + 1) (frame.bind name value)
  | .ok .skip => arrive code (position + 1) frame
  | .ok (.goto target) =>
    match code.labelPosition? target with
    | some position => arrive code position frame
    | none => .ended (.faulted (.unknownLabel target)) frame
  | .ok (.ret value) => .ended (.returned value) { frame with pending := none }
  | .error fault => .ended (.faulted fault) frame

theorem step_running {code : Code Value} {position : Nat} {instruction : Instruction Value}
    (found : code[position]? = some instruction) (receiver : Value) (frame : Frame Value) :
    step code receiver (.running position frame) =
      perform code position frame (instruction.effect frame receiver) := by
  have executed := instruction.executeOn_eq frame receiver
  unfold Instruction.executeOn at executed
  simp only [step, found, executed]
  cases performed : instruction.effect frame receiver with
  | error fault => rfl
  | ok effect =>
      have isReturn := (Instruction.effect_eq_ok_iff.mp performed).isReturn_eq
      cases effect with
      | store | skip => simp [follow, isReturn, perform, Effect.goesTo?, Effect.applyTo]
      | goto target => rfl
      | ret value => simp only [follow, isReturn, Effect.goesTo?]; rfl

end RunState

end LinearIR
