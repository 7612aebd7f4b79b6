import LinearIR.Folding
import LinearIR.Proofs.StepLimit

/-!
# What a run depends on

A run goes by the variables that the code reads, and by nothing else in its frame. From two frames
that agree on them it takes the same way, and every variable is then written alike or left alone.
A value that is pending at the start is never returned: a return puts its own in its place, and
everything else leaves it where it is.
-/

set_option autoImplicit false

namespace LinearIR

/-- The frames that two runs have come to. A variable has one value in both, or is in each as it
was at the start. -/
def Frame.WrittenAlike (first second frame frame' : Frame Value) : Prop :=
  ∀ name, (∃ value, frame.get? name = some value ∧ frame'.get? name = some value) ∨
    (frame.get? name = first.get? name ∧ frame'.get? name = second.get? name)

/-- What a run leaves pending of what was pending before it. -/
def Outcome.pendingAfter {V : Type} (before : Option V) : Outcome V → Option V
  | .returned _ => none
  | .finished | .faulted _ | .stepLimit .. => before

namespace Frame.WrittenAlike

variable {first second frame frame' : Frame Value}

theorem start (first second : Frame Value) : WrittenAlike first second first second :=
  fun _ => .inr ⟨rfl, rfl⟩

theorem bind (alike : WrittenAlike first second frame frame') (stored : Variable) (value : Value) :
    WrittenAlike first second (frame.bind stored value) (frame'.bind stored value) := by
  intro name
  by_cases same : name = stored
  · subst same
    exact .inl ⟨value, frame.get?_bind_self name value, frame'.get?_bind_self name value⟩
  · rw [frame.get?_bind_of_ne same, frame'.get?_bind_of_ne same]
    exact alike name

/-- Where the first frames agree, the later ones agree too. -/
theorem get?_eq (alike : WrittenAlike first second frame frame') {name : Variable}
    (agree : first.get? name = second.get? name) : frame.get? name = frame'.get? name := by
  rcases alike name with ⟨value, bound, bound'⟩ | ⟨kept, kept'⟩
  · rw [bound, bound']
  · rw [kept, kept', agree]

end Frame.WrittenAlike

namespace RunState

/-- Two runs at one position, or ended with one outcome. -/
inductive InStep (first second : Frame Value) :
    RunState (Frame Value) Value → RunState (Frame Value) Value → Prop where
  | running {position frame frame'} : Frame.WrittenAlike first second frame frame' →
      InStep first second (.running position frame) (.running position frame')
  | ended {outcome frame frame'} : Frame.WrittenAlike first second frame frame' →
      InStep first second (.ended outcome frame) (.ended outcome frame')

variable {code : Code Value} {receiver : Value} {first second frame frame' : Frame Value}

theorem inStep_arrive (alike : Frame.WrittenAlike first second frame frame') (code : Code Value)
    (position : Nat) :
    InStep first second (arrive code position frame) (arrive code position frame') := by
  unfold arrive
  split
  · exact .running alike
  · exact .ended alike

theorem inStep_perform (alike : Frame.WrittenAlike first second frame frame') (code : Code Value)
    (position : Nat) (performed : Except (Fault Value) Effect) :
    InStep first second (perform code position frame performed)
      (perform code position frame' performed) := by
  cases performed with
  | error fault => exact .ended alike
  | ok effect =>
      cases effect with
      | store name value => exact inStep_arrive (alike.bind name value) code _
      | skip => exact inStep_arrive alike code _
      | goto target =>
          simp only [perform]
          cases code.labelPosition? target with
          | none => exact .ended alike
          | some label => exact inStep_arrive alike code label
      | ret value => exact .ended alike

/-- The step lemma: an instruction has one effect on two frames that agree on what it reads. -/
theorem InStep.step (agree : ∀ name ∈ code.reads, first.get? name = second.get? name)
    {state state' : RunState (Frame Value) Value} (inStep : InStep first second state state') :
    InStep first second (RunState.step code receiver state)
      (RunState.step code receiver state') := by
  cases inStep with
  | ended alike => exact .ended alike
  | @running position frame frame' alike =>
      cases found : code[position]? with
      | none =>
          simp only [RunState.step, found]
          exact .ended alike
      | some instruction =>
          have sameEffect : instruction.effect frame receiver =
              instruction.effect frame' receiver := by
            refine Instruction.effect_congr fun name read => alike.get?_eq (agree name ?_)
            exact List.mem_flatMap.mpr ⟨instruction, List.mem_of_getElem? found, read⟩
          rw [step_running found, step_running found, sameEffect]
          exact inStep_perform alike code position _

theorem inStep_advance (agree : ∀ name ∈ code.reads, first.get? name = second.get? name)
    (receiver : Value) (steps : Nat) :
    InStep first second (advance code receiver steps (.arrive code 0 first))
      (advance code receiver steps (.arrive code 0 second)) := by
  induction steps with
  | zero =>
      rw [advance_zero, advance_zero]
      exact inStep_arrive (.start first second) code 0
  | succ steps ih =>
      rw [advance_succ', advance_succ']
      exact ih.step agree

/-- What is pending in a state, if the run began with a certain value pending or with none. -/
def LeavesPending (before : Option Value) : RunState (Frame Value) Value → Prop
  | .running _ frame => frame.pending = before
  | .ended outcome frame => frame.pending = outcome.pendingAfter before

theorem leavesPending_arrive (code : Code Value) (position : Nat) (frame : Frame Value) :
    (arrive code position frame).LeavesPending frame.pending := by
  unfold arrive
  split <;> rfl

theorem leavesPending_perform (code : Code Value) (position : Nat) (frame : Frame Value)
    (performed : Except (Fault Value) Effect) :
    (perform code position frame performed).LeavesPending frame.pending := by
  cases performed with
  | error fault => rfl
  | ok effect =>
      cases effect with
      | store name value => exact leavesPending_arrive code _ (frame.bind name value)
      | skip => exact leavesPending_arrive code _ frame
      | goto target =>
          simp only [perform]
          cases code.labelPosition? target with
          | none => rfl
          | some label => exact leavesPending_arrive code label frame
      | ret value => rfl

theorem Executes.leavesPending {before : Option Value} {count : Nat}
    {start last : RunState (Frame Value) Value}
    (executes : Executes code receiver count start last) (leaves : start.LeavesPending before) :
    last.LeavesPending before := by
  refine executes.preserves (fun position frame instruction found leaves => ?_) leaves
  have same : frame.pending = before := leaves
  rw [step_running found]
  exact same ▸ leavesPending_perform code position frame _

end RunState

namespace Code

variable {code : Code Value} {limit? : Option Nat} {receiver : Value}
  {first second frame final : Frame Value} {outcome : Outcome Value}

theorem RunsTo.pending_eq (ran : code.RunsTo limit? receiver frame outcome final) :
    final.pending = outcome.pendingAfter frame.pending := by
  obtain ⟨count, last, executes, stops⟩ := runsTo_iff_executes.mp ran
  have leaves := executes.leavesPending (RunState.leavesPending_arrive code 0 frame)
  cases stops with
  | ended => exact leaves
  | cut => exact leaves

theorem RunsTo.inStep (agree : ∀ name ∈ code.reads, first.get? name = second.get? name)
    (ran : code.RunsTo limit? receiver first outcome final) :
    ∃ final', code.RunsTo limit? receiver second outcome final' ∧
      Frame.WrittenAlike first second final final' := by
  cases limit? with
  | none =>
      obtain ⟨steps, ended⟩ := ran
      have inStep := RunState.inStep_advance agree receiver steps
      rw [ended] at inStep
      generalize reached : RunState.advance code receiver steps (.arrive code 0 second) = state
        at inStep
      cases inStep with
      | ended alike => exact ⟨_, ⟨steps, reached⟩, alike⟩
  | some limit =>
      have inStep := RunState.inStep_advance agree receiver limit
      simp only [RunsTo, runWithin] at ran ⊢
      generalize RunState.advance code receiver limit (.arrive code 0 first) = state at *
      generalize RunState.advance code receiver limit (.arrive code 0 second) = state' at *
      cases inStep with
      | running alike => cases ran; exact ⟨_, rfl, alike⟩
      | ended alike => cases ran; exact ⟨_, rfl, alike⟩

/-- A run depends on the variables that the code reads, and on nothing else in its frame. From two
frames that agree on these variables the runs execute the same positions, and if one ends, so does
the other, with the same outcome. Each variable has then one value in both frames or is in each
what it was; and nothing is pending after a return, while any other outcome leaves pending what was
pending before. -/
theorem run_depends_on_reads (code : Code Value) (receiver : Value) (first second : Frame Value)
    (agree : ∀ name ∈ code.reads, first.get? name = second.get? name) :
    (∀ steps, RunState.InStep first second
      (RunState.advance code receiver steps (.arrive code 0 first))
      (RunState.advance code receiver steps (.arrive code 0 second))) ∧
    ∀ limit?,
      ((∃ outcome final, code.RunsTo limit? receiver first outcome final) ↔
        ∃ outcome final, code.RunsTo limit? receiver second outcome final) ∧
      ∀ outcome outcome' final final', code.RunsTo limit? receiver first outcome final →
        code.RunsTo limit? receiver second outcome' final' →
        outcome = outcome' ∧ Frame.WrittenAlike first second final final' ∧
          final.pending = outcome.pendingAfter first.pending ∧
          final'.pending = outcome'.pendingAfter second.pending := by
  refine ⟨RunState.inStep_advance agree receiver, fun limit? => ⟨⟨?_, ?_⟩, ?_⟩⟩
  · rintro ⟨outcome, final, ran⟩
    obtain ⟨final', ran', -⟩ := ran.inStep agree
    exact ⟨outcome, final', ran'⟩
  · rintro ⟨outcome, final, ran⟩
    obtain ⟨final', ran', -⟩ := ran.inStep fun name read => (agree name read).symm
    exact ⟨outcome, final', ran'⟩
  · intro outcome outcome' final final' ran ran'
    obtain ⟨reached, alsoRan, alike⟩ := ran.inStep agree
    obtain ⟨rfl, rfl⟩ := alsoRan.unique ran'
    exact ⟨rfl, alike, ran.pending_eq, ran'.pending_eq⟩

/-- Reads one variable only, and goes on by what it has written there itself. -/
def secondRound : Code Value := [
  .copy ⟨"seen"⟩ (.var ⟨"x"⟩),
  .label ⟨"again"⟩,
  .beq (.var ⟨"x"⟩) (.constant .nil) ⟨"done"⟩,
  .copy ⟨"x"⟩ (.constant .nil),
  .jump ⟨"again"⟩,
  .label ⟨"done"⟩,
  .getArray ⟨"y"⟩ (.var ⟨"x"⟩) 0 false]

def staleFrame : Frame Value :=
  (Frame.ofList [(⟨"x"⟩, Value.array []), (⟨"y"⟩, Value.nil)]).setReturn Value.nil

/-- Neither the other binding nor the value left pending makes a difference. -/
theorem secondRound_depends_on_one_variable : ∃ final final',
    secondRound.RunsTo none Value.nil staleFrame (.faulted (.notAnArray (.var ⟨"x"⟩) .nil)) final ∧
    secondRound.RunsTo none Value.nil (Frame.ofList [(⟨"x"⟩, Value.array [])])
      (.faulted (.notAnArray (.var ⟨"x"⟩) .nil)) final' ∧
    final.pending = some Value.nil ∧ final'.pending = none := by
  have ran : secondRound.RunsTo none Value.nil staleFrame
      (.faulted (.notAnArray (.var ⟨"x"⟩) .nil)) _ := ⟨9, rfl⟩
  obtain ⟨-, runs⟩ := run_depends_on_reads secondRound Value.nil staleFrame
    (Frame.ofList [(⟨"x"⟩, Value.array [])]) (by decide)
  obtain ⟨ends, alike⟩ := runs none
  obtain ⟨outcome', final', ran'⟩ := ends.mp ⟨_, _, ran⟩
  obtain ⟨rfl, -, pending, pending'⟩ := alike _ _ _ _ ran ran'
  exact ⟨_, final', ran, ran', pending, pending'⟩

end Code

end LinearIR
