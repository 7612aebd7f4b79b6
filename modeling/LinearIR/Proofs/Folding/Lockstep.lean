import LinearIR.Proofs.Folding.Soundness
import LinearIR.Proofs.LabelPositions
import LinearIR.Proofs.Runs

/-!
# Narrowed code runs in lockstep

Where no jump arrives with knowledge still in force, what is known at the position of a run is
sound for its frame. So the narrowed code executes the same positions on the same frames, and
ends alike.
-/

set_option autoImplicit false

namespace LinearIR

def Instruction.target? {V : Type} : Instruction V → Option Label
  | .jump target | .beq _ _ target => some target
  | .copy .. | .getArray .. | .label _ | .ret _ => none

theorem Instruction.Performs.target?_eq {instruction : Instruction Value} {frame : Frame Value}
    {receiver : Value} {target : Label}
    (performs : instruction.Performs frame receiver (.goto target)) :
    instruction.target? = some target := by
  cases performs <;> rfl

/-- Every jump that arrives in the code arrives where nothing is known: at labels knowledge is
forgotten, or there is no jump that arrives. -/
def FoldOptions.SafeFor (options : FoldOptions) (code : Code Value) : Prop :=
  options.resetAtLabels = true ∨
    ∀ instruction ∈ code, ∀ target ∈ instruction.target?, code.Undefined target

instance (options : FoldOptions) (code : Code Value) : Decidable (options.SafeFor code) :=
  inferInstanceAs (Decidable (_ ∨ _))

/-- The outcome of narrowed code: only the source that a failed extraction names is narrowed, by
what is known at the position where the run from the front fails. -/
inductive Outcome.Narrows (code : Code Value) (options : FoldOptions) (receiver : Value)
    (start : Frame Value) : Outcome Value → Outcome Value → Prop where
  | same {outcome} :
      (∀ operand found, outcome ≠ .faulted (.notAnArray operand found)) →
      Narrows code options receiver start outcome outcome
  | notAnArray {position result operand index takeRest} (found : Kind) :
      RunState.FaultsAt code receiver (.arrive code 0 start) position →
      code[position]? = some (.getArray result operand index takeRest) →
      Narrows code options receiver start (.faulted (.notAnArray operand found))
        (.faulted (.notAnArray (operand.resolve (code.knownAt options position)) found))

/-- Two runs at one position of a code and of its narrowing, with one frame for which all that is
known there is true, or ended alike. -/
inductive Code.Lockstep (code : Code Value) (options : FoldOptions) (receiver : Value)
    (start : Frame Value) : RunState (Frame Value) Value → RunState (Frame Value) Value → Prop where
  | running {position frame} :
      position < code.length →
      (code.knownAt options position).Sound frame receiver →
      Lockstep code options receiver start (.running position frame) (.running position frame)
  | ended {outcome outcome' frame} :
      outcome.Narrows code options receiver start outcome' →
      Lockstep code options receiver start (.ended outcome frame) (.ended outcome' frame)

@[simp]
theorem Instruction.target?_mapOperands {V W : Type} (replace : Operand V → Operand W)
    (instruction : Instruction V) :
    (instruction.mapOperands replace).target? = instruction.target? := by
  cases instruction <;> rfl

theorem Instruction.defines_narrow (target : Label) (instruction : Instruction Value)
    (known : Known) :
    (instruction.narrow known).instruction.defines target = instruction.defines target := by
  cases instruction <;> rfl

theorem Instruction.exists_getArray_of_effect {instruction : Instruction Value}
    {frame : Frame Value} {receiver : Value} {operand : Operand Value} {found : Kind}
    (faulted : instruction.effect frame receiver = .error (.notAnArray operand found)) :
    ∃ result index takeRest, instruction = .getArray result operand index takeRest := by
  have evaluatedOperand : ∀ read : Operand Value,
      read.valueIn frame receiver ≠ .error (.notAnArray operand found) := by
    intro read failed
    exact Operand.ne_notAnArray_of_valueIn failed operand found rfl
  cases instruction with
  | copy result source =>
      cases evaluated : source.valueIn frame receiver <;>
        simp_all [effect, bind, Except.bind, pure, Except.pure]
  | getArray result array index takeRest =>
      cases evaluated : array.valueIn frame receiver with
      | error fault => simp_all [effect, bind, Except.bind]
      | ok whole =>
          simp only [effect, evaluated, bind, Except.bind] at faulted
          split at faulted <;> cases faulted
          exact ⟨result, index, takeRest, rfl⟩
  | label | jump => cases faulted
  | beq first second target =>
      cases firstEvaluated : first.valueIn frame receiver <;>
        cases secondEvaluated : second.valueIn frame receiver <;>
          simp_all [effect, bind, Except.bind, pure, Except.pure]
  | ret value =>
      cases evaluated : value.valueIn frame receiver <;>
        simp_all [effect, bind, Except.bind, pure, Except.pure]

namespace Code

variable {code : Code Value} {options : FoldOptions} {receiver : Value}
  {start frame : Frame Value}

theorem knownAt_succ {position : Nat} {instruction next : Instruction Value}
    (found : code[position]? = some instruction) (nextFound : code[position + 1]? = some next) :
    code.knownAt options (position + 1) =
      ((code.knownAt options position).leave
        (instruction.narrow (code.knownAt options position))).enter options next := by
  simp only [knownAt, found, nextFound, List.take_add_one, Option.toList_some, List.foldl_append,
    List.foldl_cons, List.foldl_nil, Known.after]

theorem knownAt_zero {instruction : Instruction Value} (found : code[0]? = some instruction) :
    code.knownAt options 0 = Known.enter ∅ options instruction := by
  simp [knownAt, found]

theorem knownAt_label {position : Nat} {name : Label} (reset : options.resetAtLabels = true)
    (found : code[position]? = some (.label name)) : code.knownAt options position = ∅ := by
  simp [knownAt, found, Known.enter, reset, Instruction.isLabel]

theorem getElem?_fold (position : Nat) :
    (code.fold options).instructions[position]? =
      code[position]?.map fun instruction =>
        (instruction.narrow (code.knownAt options position)).instruction := by
  simp only [fold, List.getElem?_map, getElem?_narrowFrom, Option.map_map]
  rfl

@[simp]
theorem length_fold_instructions :
    (code.fold options).instructions.length = code.length := by
  have narrowed : ∀ (known : Known) (rest : Code Value),
      (rest.narrowFrom known options).length = rest.length := by
    intro known rest
    induction rest generalizing known with
    | nil => rfl
    | cons instruction rest ih => simp [narrowFrom, ih]
  simp [fold, narrowed]

theorem labelPosition?_fold (target : Label) :
    (code.fold options).instructions.labelPosition? target = code.labelPosition? target := by
  refine labelPosition?_eq_of_defines (List.ext_getElem? fun position => ?_)
  rw [List.getElem?_map, List.getElem?_map, getElem?_fold]
  cases code[position]? with
  | none => rfl
  | some instruction => exact congrArg some (instruction.defines_narrow target _)

theorem Lockstep.arrive {position : Nat}
    (sound : ∀ instruction, code[position]? = some instruction →
      (code.knownAt options position).Sound frame receiver) :
    Lockstep code options receiver start (.arrive code position frame)
      (.arrive (code.fold options).instructions position frame) := by
  by_cases inside : position < code.length
  · rw [RunState.arrive_of_lt inside,
      RunState.arrive_of_lt (length_fold_instructions.symm ▸ inside)]
    exact .running inside (sound _ (List.getElem?_eq_getElem inside))
  · have outside := Nat.not_lt.mp inside
    rw [RunState.arrive_of_ge outside,
      RunState.arrive_of_ge (length_fold_instructions.symm ▸ outside)]
    exact .ended (.same nofun)

theorem Lockstep.front : Lockstep code options receiver start (.arrive code 0 frame)
    (.arrive (code.fold options).instructions 0 frame) := by
  apply Lockstep.arrive
  intro instruction found
  rw [knownAt_zero found]
  exact (Known.Sound.empty frame receiver).enter options instruction

theorem Lockstep.arrive_next {position : Nat} {instruction : Instruction Value}
    (found : code[position]? = some instruction)
    (left : ((code.knownAt options position).leave
      (instruction.narrow (code.knownAt options position))).Sound frame receiver) :
    Lockstep code options receiver start (.arrive code (position + 1) frame)
      (.arrive (code.fold options).instructions (position + 1) frame) := by
  apply Lockstep.arrive
  intro next nextFound
  rw [knownAt_succ found nextFound]
  exact left.enter options next

theorem Lockstep.arrive_label (safe : options.SafeFor code) {instruction : Instruction Value}
    {target : Label} (member : instruction ∈ code) (jumps : instruction.target? = some target)
    {position : Nat} (labelFound : code.labelPosition? target = some position) :
    Lockstep code options receiver start (.arrive code position frame)
      (.arrive (code.fold options).instructions position frame) := by
  -- A jump arrives where nothing is known, or it has no label to arrive at.
  rcases safe with reset | jumpsOut
  · apply Lockstep.arrive
    intro instruction labelHere
    rw [knownAt_label reset (getElem?_of_labelPosition? labelFound)]
    exact .empty frame receiver
  · rw [labelPosition?_eq_none_iff.mpr (jumpsOut instruction member target jumps)] at labelFound
    cases labelFound

theorem Lockstep.perform (safe : options.SafeFor code) {position : Nat}
    {instruction : Instruction Value} (found : code[position]? = some instruction)
    (reached : ∃ steps, RunState.advance code receiver steps (.arrive code 0 start) =
      .running position frame)
    (sound : (code.knownAt options position).Sound frame receiver) :
    Lockstep code options receiver start
      (.perform code position frame (instruction.effect frame receiver))
      (.perform (code.fold options).instructions position frame
        ((instruction.narrow (code.knownAt options position)).instruction.effect
          frame receiver)) := by
  have narrowed := sound.effect_narrow instruction
  cases performed : instruction.effect frame receiver with
  | error fault =>
      rw [narrowed, performed]
      refine .ended ?_
      cases fault with
      | notAnArray operand kind =>
          obtain ⟨result, index, takeRest, rfl⟩ := Instruction.exists_getArray_of_effect performed
          obtain ⟨steps, here⟩ := reached
          have faulted := RunState.step_running found receiver frame
          rw [performed] at faulted
          exact .notAnArray kind ⟨steps, frame, _, frame, here, faulted⟩ found
      | unboundVariable | labelAsValue | unknownLabel => exact .same (by simp)
  | ok effect =>
      rw [performed] at narrowed
      change _ = Except.ok effect at narrowed
      rw [narrowed]
      have performs := Instruction.effect_eq_ok_iff.mp narrowed
      cases effect with
      | store name value => exact .arrive_next found (sound.leave_store rfl performs)
      | skip => exact .arrive_next found (sound.leave_skip performs)
      | goto target =>
          simp only [RunState.perform, labelPosition?_fold]
          cases labelFound : code.labelPosition? target with
          | none => exact .ended (.same (by simp))
          | some label =>
              have jumps : instruction.target? = some target := by
                cases Instruction.effect_eq_ok_iff.mp performed <;> rfl
              exact .arrive_label safe (List.mem_of_getElem? found) jumps labelFound
      | ret value => exact .ended (.same (by simp))

theorem Lockstep.step (safe : options.SafeFor code) {state state' : RunState (Frame Value) Value}
    (reached : ∃ steps, RunState.advance code receiver steps (.arrive code 0 start) = state)
    (lockstep : Lockstep code options receiver start state state') :
    Lockstep code options receiver start (RunState.step code receiver state)
      (RunState.step (code.fold options).instructions receiver state') := by
  cases lockstep with
  | @running position frame inside sound =>
      have found := List.getElem?_eq_getElem inside
      have narrowedFound : (code.fold options).instructions[position]? = _ := getElem?_fold position
      rw [found] at narrowedFound
      rw [RunState.step_running found, RunState.step_running narrowedFound]
      exact .perform safe found reached sound
  | ended narrows => exact .ended narrows

theorem lockstep_advance (safe : options.SafeFor code) (receiver : Value) (frame : Frame Value)
    (steps : Nat) :
    Lockstep code options receiver frame
      (RunState.advance code receiver steps (.arrive code 0 frame))
      (RunState.advance (code.fold options).instructions receiver steps
        (.arrive (code.fold options).instructions 0 frame)) := by
  induction steps with
  | zero => simpa using Lockstep.front
  | succ steps ih =>
      rw [RunState.advance_succ', RunState.advance_succ']
      exact ih.step safe ⟨steps, rfl⟩

theorem Lockstep.ended_right {state state' : RunState (Frame Value) Value}
    (lockstep : Lockstep code options receiver start state state') {outcome : Outcome Value}
    (ended : state = .ended outcome frame) :
    ∃ outcome', outcome.Narrows code options receiver start outcome' ∧
      state' = .ended outcome' frame := by
  cases lockstep with
  | running => cases ended
  | ended narrows => cases ended; exact ⟨_, narrows, rfl⟩

theorem Lockstep.ended_left {state state' : RunState (Frame Value) Value}
    (lockstep : Lockstep code options receiver start state state') {outcome' : Outcome Value}
    (ended : state' = .ended outcome' frame) :
    ∃ outcome, outcome.Narrows code options receiver start outcome' ∧
      state = .ended outcome frame := by
  cases lockstep with
  | running => cases ended
  | ended narrows => cases ended; exact ⟨_, narrows, rfl⟩

/-- Runs with the same limit end alike, and both are cut off if one is. -/
theorem Lockstep.runWithin {limit : Nat} (lockstep : Lockstep code options receiver frame
      (RunState.advance code receiver limit (.arrive code 0 frame))
      (RunState.advance (code.fold options).instructions receiver limit
        (.arrive (code.fold options).instructions 0 frame))) :
    Outcome.Narrows code options receiver frame (code.runWithin limit receiver frame).1
        ((code.fold options).instructions.runWithin limit receiver frame).1 ∧
      ((code.fold options).instructions.runWithin limit receiver frame).2 =
        (code.runWithin limit receiver frame).2 := by
  unfold Code.runWithin
  revert lockstep
  generalize RunState.advance code receiver limit (.arrive code 0 frame) = state
  generalize RunState.advance (code.fold options).instructions receiver limit
    (.arrive (code.fold options).instructions 0 frame) = state'
  intro lockstep
  cases lockstep with
  | running => exact ⟨.same nofun, rfl⟩
  | ended narrows => exact ⟨narrows, rfl⟩

/-- Running the narrowed instructions of a code is running the code: after any number of steps
both runs are at one position with one frame or have ended alike, and with any limit or none the
one ends if the other does, with the same frame and the same outcome, but that a failed extraction
names its source as narrowed there. -/
theorem narrowed_runs_in_lockstep (code : Code Value) (options : FoldOptions)
    (safe : options.SafeFor code) (receiver : Value) (frame : Frame Value) :
    (∀ steps, code.Lockstep options receiver frame
      (RunState.advance code receiver steps (.arrive code 0 frame))
      (RunState.advance (code.fold options).instructions receiver steps
        (.arrive (code.fold options).instructions 0 frame))) ∧
    (∀ limit? outcome final, code.RunsTo limit? receiver frame outcome final →
      ∃ outcome', outcome.Narrows code options receiver frame outcome' ∧
        (code.fold options).instructions.RunsTo limit? receiver frame outcome' final) ∧
    ∀ limit? outcome' final,
      (code.fold options).instructions.RunsTo limit? receiver frame outcome' final →
      ∃ outcome, outcome.Narrows code options receiver frame outcome' ∧
        code.RunsTo limit? receiver frame outcome final := by
  have lockstep := lockstep_advance safe receiver frame
  refine ⟨lockstep, ?_, ?_⟩
  · intro limit? outcome final ran
    cases limit? with
    | none =>
        obtain ⟨steps, ended⟩ := ran
        obtain ⟨outcome', narrows, ended'⟩ := (lockstep steps).ended_right ended
        exact ⟨outcome', narrows, steps, ended'⟩
    | some limit =>
        obtain ⟨narrows, sameFrame⟩ := (lockstep limit).runWithin
        have ended : code.runWithin limit receiver frame = (outcome, final) := ran
        rw [ended] at narrows sameFrame
        exact ⟨_, narrows, Prod.ext rfl sameFrame⟩
  · intro limit? outcome' final ran
    cases limit? with
    | none =>
        obtain ⟨steps, ended'⟩ := ran
        obtain ⟨outcome, narrows, ended⟩ := (lockstep steps).ended_left ended'
        exact ⟨outcome, narrows, steps, ended⟩
    | some limit =>
        obtain ⟨narrows, sameFrame⟩ := (lockstep limit).runWithin
        have ended' : (code.fold options).instructions.runWithin limit receiver frame =
            (outcome', final) := ran
        rw [ended'] at narrows sameFrame
        exact ⟨_, narrows, Prod.ext rfl sameFrame.symm⟩

/-- Extracts from the number that it has extracted from an array across a label. -/
def extractTwice : Code Value := [
  .copy ⟨"x"⟩ (.array [.constant (.scalar (.fixnum 1)), .var ⟨"y"⟩]),
  .label ⟨"passed"⟩,
  .getArray ⟨"z"⟩ (.var ⟨"x"⟩) 0 false,
  .getArray ⟨"w"⟩ (.var ⟨"z"⟩) 0 true,
  .jump ⟨"elsewhere"⟩]

/-- Knowledge passes the label, which no jump reaches, and the fault names the narrowed operand. -/
theorem extractTwice_in_lockstep :
    FoldOptions.SafeFor ⟨false⟩ extractTwice ∧
      (extractTwice.fold ⟨false⟩).instructions ≠ extractTwice ∧
      ∃ final,
        (extractTwice.fold ⟨false⟩).instructions.RunsTo none Value.nil
          (Frame.ofList [(⟨"y"⟩, Value.nil)])
          (.faulted (.notAnArray (.constant (.scalar (.fixnum 1))) .fixnum)) final ∧
        Outcome.Narrows extractTwice ⟨false⟩ Value.nil (Frame.ofList [(⟨"y"⟩, Value.nil)])
          (.faulted (.notAnArray (.var ⟨"z"⟩) .fixnum))
          (.faulted (.notAnArray (.constant (.scalar (.fixnum 1))) .fixnum)) := by
  have safe : FoldOptions.SafeFor ⟨false⟩ extractTwice := by decide
  have ran : extractTwice.RunsTo none Value.nil (Frame.ofList [(⟨"y"⟩, Value.nil)])
      (.faulted (.notAnArray (.var ⟨"z"⟩) .fixnum)) _ := ⟨4, rfl⟩
  have narrowedRan : (extractTwice.fold ⟨false⟩).instructions.RunsTo none Value.nil
      (Frame.ofList [(⟨"y"⟩, Value.nil)])
      (.faulted (.notAnArray (.constant (.scalar (.fixnum 1))) .fixnum)) _ := ⟨4, rfl⟩
  obtain ⟨outcome', narrows, ran'⟩ :=
    (narrowed_runs_in_lockstep extractTwice ⟨false⟩ safe Value.nil _).2.1 none _ _ ran
  obtain ⟨rfl, -⟩ := ran'.unique narrowedRan
  exact ⟨safe, by decide, _, ran', narrows⟩

end Code

end LinearIR
