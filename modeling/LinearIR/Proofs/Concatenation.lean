import LinearIR.Proofs.Folding.Lockstep
import LinearIR.Proofs.StepLimit

/-!
# Running one code after another

Two codes that do not jump into each other run one after the other when they are concatenated.
Positions of the first stay as they are and positions of the second are shifted, and both parts
draw on one limit.
-/

set_option autoImplicit false

namespace LinearIR

/-- No jump of the code targets a label that the other code defines. -/
def Code.StaysOutOf (code other : Code Value) : Prop :=
  ∀ instruction ∈ code, ∀ target ∈ instruction.target?, other.Undefined target

instance (code other : Code Value) : Decidable (code.StaysOutOf other) :=
  inferInstanceAs (Decidable (∀ instruction ∈ code, _))

namespace RunState

variable {first second : Code Value} {receiver : Value} {frame : Frame Value}

/-- Where a run of the first code stands in the concatenation. Having run off its end, it is at
the front of the second code. -/
def handOver (first second : Code Value) :
    RunState (Frame Value) Value → RunState (Frame Value) Value
  | .ended .finished frame => arrive (first ++ second) first.length frame
  | .ended outcome frame => .ended outcome frame
  | .running position frame => .running position frame

/-- Where a run of the second code stands in the concatenation. -/
def shift (first : Code Value) : RunState (Frame Value) Value → RunState (Frame Value) Value
  | .ended outcome frame => .ended outcome frame
  | .running position frame => .running (first.length + position) frame

theorem handOver_arrive {position : Nat} (within : position ≤ first.length) :
    handOver first second (arrive first position frame) =
      arrive (first ++ second) position frame := by
  rcases Nat.lt_or_eq_of_le within with inside | atEnd
  · have insideBoth : position < (first ++ second).length := by
      rw [List.length_append]
      exact Nat.lt_add_right second.length inside
    rw [arrive_of_lt inside, arrive_of_lt insideBoth, handOver]
  · rw [arrive_of_ge (Nat.le_of_eq atEnd.symm), handOver, atEnd]

theorem shift_arrive (first second : Code Value) (position : Nat) (frame : Frame Value) :
    shift first (arrive second position frame) =
      arrive (first ++ second) (first.length + position) frame := by
  unfold arrive
  rw [List.length_append]
  by_cases inside : position < second.length
  · rw [if_pos inside, if_pos (Nat.add_lt_add_left inside _), shift]
  · rw [if_neg inside, if_neg (mt Nat.lt_of_add_lt_add_left inside), shift]

theorem perform_append_left {position : Nat} (inside : position < first.length)
    {performed : Except (Fault Value) Effect}
    (apart : ∀ target, performed = .ok (.goto target) → second.Undefined target) :
    perform (first ++ second) position frame performed =
      handOver first second (perform first position frame performed) := by
  cases performed with
  | error fault => rfl
  | ok effect =>
      cases effect with
      | store name value => exact (handOver_arrive inside).symm
      | skip => exact (handOver_arrive inside).symm
      | goto target =>
          have positions : (first ++ second).labelPosition? target =
              first.labelPosition? target := by
            rw [Code.labelPosition?_append, Code.labelPosition?_eq_none_iff.mpr (apart target rfl)]
          simp only [perform, positions]
          cases found : first.labelPosition? target with
          | none => rfl
          | some label => exact (handOver_arrive (Nat.le_of_lt (Code.labelPosition?_lt found))).symm
      | ret value => rfl

theorem perform_append_right {position : Nat} {performed : Except (Fault Value) Effect}
    (apart : ∀ target, performed = .ok (.goto target) → first.Undefined target) :
    perform (first ++ second) (first.length + position) frame performed =
      shift first (perform second position frame performed) := by
  cases performed with
  | error fault => rfl
  | ok effect =>
      cases effect with
      | store name value => exact (shift_arrive first second (position + 1) _).symm
      | skip => exact (shift_arrive first second (position + 1) _).symm
      | goto target =>
          have absent := Code.labelPosition?_eq_none_iff.mpr (apart target rfl)
          simp only [perform, Code.labelPosition?_append, absent]
          cases second.labelPosition? target with
          | none => rfl
          | some label => exact (shift_arrive first second label frame).symm
      | ret value => rfl

/-- A run is taken over into another code if each of its steps is. -/
theorem Executes.map {code code' : Code Value}
    {embed : RunState (Frame Value) Value → RunState (Frame Value) Value}
    (matched : ∀ position frame instruction, code[position]? = some instruction →
      ∃ position', embed (.running position frame) = .running position' frame ∧
        code'[position']? = some instruction ∧
        step code' receiver (.running position' frame) =
          embed (step code receiver (.running position frame)))
    {count : Nat} {start last : RunState (Frame Value) Value}
    (executes : Executes code receiver count start last) :
    Executes code' receiver count (embed start) (embed last) := by
  induction executes with
  | none => exact .none
  | next found _ ih =>
      obtain ⟨position', placed, found', stepped⟩ := matched _ _ _ found
      rw [placed]
      rw [← stepped] at ih
      exact .next found' ih

theorem Executes.append_left (apart : first.StaysOutOf second) {count : Nat}
    {start last : RunState (Frame Value) Value}
    (executes : Executes first receiver count start last) :
    Executes (first ++ second) receiver count (handOver first second start)
      (handOver first second last) := by
  refine executes.map fun position frame instruction found => ?_
  have inside := (List.getElem?_eq_some_iff.mp found).1
  have foundBoth : (first ++ second)[position]? = some instruction := by
    rw [List.getElem?_append_left inside, found]
  refine ⟨position, rfl, foundBoth, ?_⟩
  rw [step_running found, step_running foundBoth]
  refine perform_append_left inside fun target jumps => ?_
  have performs := Instruction.effect_eq_ok_iff.mp jumps
  exact apart instruction (List.mem_of_getElem? found) target performs.target?_eq

theorem Executes.append_right (apart : second.StaysOutOf first) {count : Nat}
    {start last : RunState (Frame Value) Value}
    (executes : Executes second receiver count start last) :
    Executes (first ++ second) receiver count (shift first start) (shift first last) := by
  refine executes.map fun position frame instruction found => ?_
  have foundBoth : (first ++ second)[first.length + position]? = some instruction := by
    rw [List.getElem?_append_right (Nat.le_add_right _ _), Nat.add_sub_cancel_left, found]
  refine ⟨first.length + position, rfl, foundBoth, ?_⟩
  rw [step_running found, step_running foundBoth]
  refine perform_append_right fun target jumps => ?_
  have performs := Instruction.effect_eq_ok_iff.mp jumps
  exact apart instruction (List.mem_of_getElem? found) target performs.target?_eq

end RunState

/-- The outcome where a run that is cut off names the limit it shared with what ran before. -/
def Outcome.underLimit {V : Type} (limit : Nat) : Outcome V → Outcome V
  | .stepLimit _ _ => .stepLimit limit limit
  | outcome => outcome

theorem Outcome.underLimit_eq {V : Type} {outcome : Outcome V} (limit : Nat)
    (notCut : ∀ steps bound, outcome ≠ .stepLimit steps bound) :
    outcome.underLimit limit = outcome := by
  cases outcome with
  | stepLimit steps bound => exact absurd rfl (notCut steps bound)
  | finished | returned | faulted => rfl

namespace Code

variable {first second : Code Value} {receiver : Value} {frame middle final : Frame Value}
  {count count' : Nat} {outcome : Outcome Value}

/-- Neither code jumps into the other. -/
structure Apart (first second : Code Value) : Prop where
  left : first.StaysOutOf second
  right : second.StaysOutOf first

theorem Apart.executes_first (apart : first.Apart second)
    {last : RunState (Frame Value) Value}
    (executes : RunState.Executes first receiver count (.arrive first 0 frame) last) :
    RunState.Executes (first ++ second) receiver count (.arrive (first ++ second) 0 frame)
      (last.handOver first second) := by
  rw [← RunState.handOver_arrive (Nat.zero_le first.length)]
  exact executes.append_left apart.left

theorem Apart.endsAfter_first (apart : first.Apart second)
    (ends : first.EndsAfter receiver frame count outcome final) (stops : outcome ≠ .finished) :
    (first ++ second).EndsAfter receiver frame count outcome final := by
  have executes := apart.executes_first ends
  cases outcome with
  | finished => exact absurd rfl stops
  | returned | faulted | stepLimit => exact executes

theorem Apart.executes_second (apart : first.Apart second)
    (finished : first.EndsAfter receiver frame count .finished middle)
    {last : RunState (Frame Value) Value}
    (executes : RunState.Executes second receiver count' (.arrive second 0 middle) last) :
    RunState.Executes (first ++ second) receiver (count + count')
      (.arrive (first ++ second) 0 frame) (last.shift first) := by
  have following := executes.append_right apart.right
  rw [RunState.shift_arrive, Nat.add_zero] at following
  exact (apart.executes_first finished).trans following

/-- Without a limit the second code is run in the frame in which the first has run off its end, if
it has. -/
theorem Apart.runsTo_append (apart : first.Apart second) :
    (first ++ second).RunsTo none receiver frame outcome final ↔
      (outcome ≠ .finished ∧ first.RunsTo none receiver frame outcome final) ∨
      ∃ middle, first.RunsTo none receiver frame .finished middle ∧
        second.RunsTo none receiver middle outcome final := by
  simp only [runsTo_none_iff]
  constructor
  · intro ends
    obtain ⟨total, ends⟩ := ends
    rcases first.endsAfter_or_executes receiver frame total with
      ⟨count, within, outcome', middle, firstEnds⟩ | ⟨position, cut, goesOn⟩
    · by_cases finishes : outcome' = .finished
      · subst finishes
        rcases second.endsAfter_or_executes receiver middle total with
          ⟨count', -, outcome', final', secondEnds⟩ | ⟨position, cut, goesOn⟩
        · have both := apart.executes_second firstEnds secondEnds
          obtain ⟨rfl, rfl⟩ := RunState.ended_unique ends.advance_eq both.advance_eq
          exact .inr ⟨middle, ⟨count, firstEnds⟩, count', secondEnds⟩
        · have late := RunState.advance_eq_of_ended ends.advance_eq (Nat.le_add_left total count)
          rw [(apart.executes_second firstEnds goesOn).advance_eq] at late
          cases late
      · have both := apart.endsAfter_first firstEnds finishes
        obtain ⟨rfl, rfl⟩ := RunState.ended_unique ends.advance_eq both.advance_eq
        exact .inl ⟨finishes, count, firstEnds⟩
    · have ended := ends.advance_eq
      rw [(apart.executes_first goesOn).advance_eq] at ended
      cases ended
  · intro parts
    rcases parts with ⟨stops, count, ends⟩ | ⟨middle, ⟨count, finished⟩, count', ends⟩
    · exact ⟨count, apart.endsAfter_first ends stops⟩
    · exact ⟨count + count', apart.executes_second finished ends⟩

theorem Apart.run_append_of_endsAfter (apart : first.Apart second) {limit : Nat}
    (finished : first.EndsAfter receiver frame count .finished middle) (within : count ≤ limit) :
    (first ++ second).run (some limit) receiver frame =
      ((second.run (some (limit - count)) receiver middle).1.underLimit limit,
        (second.run (some (limit - count)) receiver middle).2) := by
  rcases second.endsAfter_or_executes receiver middle (limit - count) with
    ⟨count', left, outcome, final, ends⟩ | ⟨position, cut, goesOn⟩
  · have both : (first ++ second).EndsAfter receiver frame (count + count') outcome final :=
      apart.executes_second finished ends
    rw [both.run_eq (Nat.add_le_of_le_sub' within left), ends.run_eq left,
      Outcome.underLimit_eq limit ends.ne_stepLimit]
  · have both := apart.executes_second finished goesOn
    rw [Nat.add_sub_cancel' within] at both
    rw [run_eq_of_executes both, run_eq_of_executes goesOn]
    rfl

/-- Running two codes that do not jump into each other as one code is running them in sequence.
If the first returns or faults, or does not end, that is all; if it runs off its end, the second
goes on in the frame it leaves. With a limit the second has what the first left of it, and a run
that is cut off reports the whole limit. -/
theorem run_append_in_sequence (first second : Code Value) (apart : first.Apart second)
    (receiver : Value) (frame : Frame Value) :
    (∀ outcome final, (first ++ second).RunsTo none receiver frame outcome final ↔
      (outcome ≠ .finished ∧ first.RunsTo none receiver frame outcome final) ∨
      ∃ middle, first.RunsTo none receiver frame .finished middle ∧
        second.RunsTo none receiver middle outcome final) ∧
    ∀ limit,
      ((first.run (some limit) receiver frame).1 ≠ .finished →
        (first ++ second).run (some limit) receiver frame =
          first.run (some limit) receiver frame) ∧
      ∀ middle, first.run (some limit) receiver frame = (.finished, middle) →
        ∃ count ≤ limit, first.EndsAfter receiver frame count .finished middle ∧
          (first ++ second).run (some limit) receiver frame =
            ((second.run (some (limit - count)) receiver middle).1.underLimit limit,
              (second.run (some (limit - count)) receiver middle).2) := by
  refine ⟨fun outcome final => apart.runsTo_append, fun limit => ?_⟩
  rcases first.endsAfter_or_executes receiver frame limit with
    ⟨count, within, outcome, final, ends⟩ | ⟨position, cut, goesOn⟩
  · rw [ends.run_eq within]
    constructor
    · intro stops
      exact (apart.endsAfter_first ends stops).run_eq within
    · intro middle finished
      cases finished
      exact ⟨count, within, ends, apart.run_append_of_endsAfter ends within⟩
  · rw [run_eq_of_executes goesOn]
    constructor
    · intro _
      exact run_eq_of_executes (apart.executes_first goesOn)
    · intro middle finished
      cases finished

/-- Leaves by a jump to its own end. -/
def leaveEarly : Code Value := [
  .copy ⟨"x"⟩ (.constant (.scalar (.str "left"))),
  .jump ⟨"end"⟩,
  .ret .self,
  .label ⟨"end"⟩]

/-- Defines the label of another loop twice, and jumps to the later definition. -/
def passThrough : Code Value := [
  .label ⟨"again"⟩,
  .beq (.var ⟨"x"⟩) (.var ⟨"x"⟩) ⟨"again"⟩,
  .ret .self,
  .label ⟨"again"⟩,
  .ret (.var ⟨"x"⟩)]

/-- Three instructions leave two of five, and four of seven, which are enough for the second. -/
theorem leaveEarly_then_passThrough :
    (leaveEarly ++ passThrough).run (some 5) Value.nil Frame.empty =
      (.stepLimit 5 5, Frame.empty.bind ⟨"x"⟩ (Value.scalar (.str "left"))) ∧
    (leaveEarly ++ passThrough).run (some 7) Value.nil Frame.empty =
      (.returned (.scalar (.str "left")), Frame.empty.bind ⟨"x"⟩ (Value.scalar (.str "left"))) := by
  have apart : leaveEarly.Apart passThrough := ⟨by decide, by decide⟩
  have sequence := (run_append_in_sequence leaveEarly passThrough apart Value.nil Frame.empty).2
  have ends : leaveEarly.EndsAfter Value.nil Frame.empty 3 .finished
      (Frame.empty.bind ⟨"x"⟩ (Value.scalar (.str "left"))) :=
    .next rfl (.next rfl (.next rfl .none))
  constructor
  · obtain ⟨count, -, ends', ran⟩ := (sequence 5).2 _ rfl
    cases ends.count_unique ends'
    exact ran
  · obtain ⟨count, -, ends', ran⟩ := (sequence 7).2 _ rfl
    cases ends.count_unique ends'
    exact ran

end Code

end LinearIR
