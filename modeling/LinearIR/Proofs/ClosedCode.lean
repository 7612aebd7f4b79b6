import LinearIR.Proofs.Folding.Names
import LinearIR.Proofs.Folding.Removal
import LinearIR.Proofs.StepLimit

/-!
# Closed code

Code is closed for a frame if every jump has its label, no operand is or contains a label, and the
frame binds whatever is read. Only one thing can then go wrong at run time, which is taking a part
of something that is not an array. A write binds one variable more, so code stays closed as it
runs; and folding, which only moves operands around, leaves it closed.
-/

set_option autoImplicit false

namespace LinearIR

structure Code.Closed (code : Code Value) (frame : Frame Value) : Prop where
  targets : ∀ instruction ∈ code, ∀ target ∈ instruction.target?, .label target ∈ code
  unlabelled : ∀ instruction ∈ code, ∀ operand ∈ instruction.operands, operand.labels = []
  bound : ∀ name ∈ code.reads, (frame.get? name).isSome

/-- The fault is that of an extraction from something else than an array. -/
def Fault.OfExtraction (fault : Fault Value) : Prop :=
  ∃ operand found, fault = .notAnArray operand found

namespace Operand

variable {operand : Operand Value} {frame : Frame Value}

/-- The operand has a value in every frame that binds what the frame binds. -/
def ClosedIn (operand : Operand Value) (frame : Frame Value) : Prop :=
  operand.Within (fun name => (frame.get? name).isSome) fun _ => False

theorem ClosedIn.exists_valueIn (closed : operand.ClosedIn frame) (receiver : Value) :
    ∃ value, operand.valueIn frame receiver = .ok value := by
  induction operand using Operand.induction with
  | var name =>
      obtain ⟨value, bound⟩ := Option.isSome_iff_exists.mp (closed.vars name (by simp [vars]))
      exact ⟨value, by rw [valueIn_var, bound]⟩
  | constant value => exact ⟨value, rfl⟩
  | array elements ih =>
      have elementsClosed := within_array_iff.mp closed
      obtain ⟨values, evaluated⟩ := Except.exists_mapM fun element member =>
        ih element member (elementsClosed element member)
      exact ⟨.array values, by rw [valueIn_array, evaluated]; rfl⟩
  | label name => exact (closed.labels name (by simp [labels])).elim
  | self => exact ⟨receiver, rfl⟩

end Operand

theorem Instruction.ofExtraction_of_effect {instruction : Instruction Value} {frame : Frame Value}
    {receiver : Value} {fault : Fault Value}
    (evaluated : ∀ operand ∈ instruction.operands, ∃ value,
      operand.valueIn frame receiver = .ok value)
    (faulted : instruction.effect frame receiver = .error fault) : fault.OfExtraction := by
  cases instruction with
  | copy result source =>
      obtain ⟨value, ok⟩ := evaluated source List.mem_cons_self
      rw [effect, ok] at faulted
      cases faulted
  | getArray result array index takeRest =>
      obtain ⟨whole, ok⟩ := evaluated array List.mem_cons_self
      simp only [effect, ok, bind, Except.bind] at faulted
      split at faulted <;> cases faulted
      exact ⟨array, whole.kind, rfl⟩
  | label name => cases faulted
  | jump target => cases faulted
  | beq first second target =>
      obtain ⟨firstValue, firstOk⟩ := evaluated first List.mem_cons_self
      obtain ⟨secondValue, secondOk⟩ :=
        evaluated second (List.mem_cons_of_mem _ List.mem_cons_self)
      rw [effect, firstOk, secondOk] at faulted
      cases faulted
  | ret operand =>
      obtain ⟨value, ok⟩ := evaluated operand List.mem_cons_self
      rw [effect, ok] at faulted
      cases faulted

namespace Code

variable {code : Code Value} {frame : Frame Value}

theorem closed_iff :
    code.Closed frame ↔
      (∀ instruction ∈ code, ∀ target ∈ instruction.target?, .label target ∈ code) ∧
      ∀ instruction ∈ code, ∀ operand ∈ instruction.operands, operand.ClosedIn frame := by
  constructor
  · intro closed
    refine ⟨closed.targets, fun instruction member operand operandMember => ⟨?_, ?_⟩⟩
    · intro name occurs
      refine closed.bound name (List.mem_flatMap.mpr ⟨instruction, member, ?_⟩)
      exact List.mem_flatMap.mpr ⟨operand, operandMember, occurs⟩
    · intro name occurs
      rw [closed.unlabelled instruction member operand operandMember] at occurs
      cases occurs
  · rintro ⟨targets, operandsClosed⟩
    refine ⟨targets, fun instruction member operand operandMember => ?_, fun name read => ?_⟩
    · refine List.eq_nil_iff_forall_not_mem.mpr fun name occurs => ?_
      exact (operandsClosed instruction member operand operandMember).labels name occurs
    · obtain ⟨instruction, member, read⟩ := List.mem_flatMap.mp read
      obtain ⟨operand, operandMember, occurs⟩ := List.mem_flatMap.mp read
      exact (operandsClosed instruction member operand operandMember).vars name occurs

theorem Closed.bind (closed : code.Closed frame) (stored : Variable) (value : Value) :
    code.Closed (frame.bind stored value) where
  targets := closed.targets
  unlabelled := closed.unlabelled
  bound name read := by
    rw [Frame.get?_bind]
    split
    · rfl
    · exact closed.bound name read

/-! ## Running closed code -/

/-- A state of a run of closed code. -/
def Settled (code : Code Value) : RunState (Frame Value) Value → Prop
  | .running _ frame => code.Closed frame
  | .ended outcome _ => ∀ fault, outcome = .faulted fault → fault.OfExtraction

theorem Closed.settled_arrive (closed : code.Closed frame) (position : Nat) :
    code.Settled (.arrive code position frame) := by
  unfold RunState.arrive
  split
  · exact closed
  · exact nofun

/-- The step lemma: an instruction of closed code leaves the code closed for the frame behind it,
and it faults in the one way only. -/
theorem Closed.settled_perform (closed : code.Closed frame) {instruction : Instruction Value}
    (member : instruction ∈ code) (position : Nat) (receiver : Value) :
    code.Settled (.perform code position frame (instruction.effect frame receiver)) := by
  have operandsClosed := (closed_iff.mp closed).2 instruction member
  cases performed : instruction.effect frame receiver with
  | error fault =>
      intro _ same
      cases same
      have evaluated : ∀ operand ∈ instruction.operands, ∃ value,
          operand.valueIn frame receiver = .ok value :=
        fun operand given => (operandsClosed operand given).exists_valueIn receiver
      exact Instruction.ofExtraction_of_effect evaluated performed
  | ok effect =>
      cases effect with
      | store name value => exact (closed.bind name value).settled_arrive _
      | skip => exact closed.settled_arrive _
      | goto target =>
          have jumps := (Instruction.effect_eq_ok_iff.mp performed).target?_eq
          obtain ⟨label, found⟩ :=
            exists_labelPosition?_iff.mpr (closed.targets instruction member target jumps)
          simp only [RunState.perform, found]
          exact closed.settled_arrive label
      | ret value =>
          intro _ same
          cases same

/-- The run lemma. -/
theorem settled_executes {receiver : Value} {count : Nat}
    {start last : RunState (Frame Value) Value}
    (executes : RunState.Executes code receiver count start last) (settled : code.Settled start) :
    code.Settled last := by
  refine executes.preserves (fun position frame instruction found settled => ?_) settled
  have closed : code.Closed frame := settled
  rw [RunState.step_running found]
  exact closed.settled_perform (List.mem_of_getElem? found) position receiver

theorem Closed.ofExtraction_of_runsTo (closed : code.Closed frame) {limit? : Option Nat}
    {receiver : Value} {fault : Fault Value} {final : Frame Value}
    (ran : code.RunsTo limit? receiver frame (.faulted fault) final) : fault.OfExtraction := by
  obtain ⟨count, last, executes, stops⟩ := runsTo_iff_executes.mp ran
  have settled := settled_executes executes (closed.settled_arrive 0)
  cases stops with
  | ended => exact settled fault rfl

/-! ## Folding closed code -/

theorem Closed.fold (closed : code.Closed frame) (options : FoldOptions) :
    (code.fold options).instructions.Closed frame := by
  obtain ⟨targets, operandsClosed⟩ := closed_iff.mp closed
  refine closed_iff.mpr ⟨?_, within_operands_fold options operandsClosed⟩
  intro narrowed member target jumps
  obtain ⟨position, found⟩ := List.getElem?_of_mem member
  rw [getElem?_fold] at found
  obtain ⟨instruction, original, rfl⟩ := Option.map_eq_some_iff.mp found
  rw [Instruction.narrow, Instruction.target?_mapOperands] at jumps
  rw [← exists_labelPosition?_iff, labelPosition?_fold, exists_labelPosition?_iff]
  exact targets instruction (List.mem_of_getElem? original) target jumps

theorem Closed.live {options : FoldOptions}
    (closed : (code.fold options).instructions.Closed frame) :
    (code.fold options).live.Closed frame := by
  obtain ⟨targets, operandsClosed⟩ := closed_iff.mp closed
  refine closed_iff.mpr ⟨fun instruction live target jumps => ?_, fun instruction live => ?_⟩
  · obtain ⟨position, found⟩ := exists_labelPosition?_iff.mpr
      (targets instruction (Folded.mem_of_mem_live live) target jumps)
    rw [← exists_labelPosition?_iff, labelPosition?_live, found]
    exact ⟨_, rfl⟩
  · exact operandsClosed instruction (Folded.mem_of_mem_live live)

/-- Closed code can only fail on the source of an extraction. If every jump of a code has its label,
no operand contains a label and the frame binds whatever is read, then no run from the frame faults
otherwise than by taking a part of something that is not an array; and what folding makes of the
code is closed for the same frame, with and without the removable instructions. -/
theorem closed_code_fails_on_sources (code : Code Value) (frame : Frame Value)
    (closed : code.Closed frame) :
    (∀ limit? receiver fault final, code.RunsTo limit? receiver frame (.faulted fault) final →
      ∃ operand found, fault = .notAnArray operand found) ∧
    ∀ options, (code.fold options).instructions.Closed frame ∧
      (code.fold options).live.Closed frame := by
  refine ⟨fun limit? receiver fault final ran => closed.ofExtraction_of_runsTo ran, ?_⟩
  intro options
  exact ⟨closed.fold options, (closed.fold options).live⟩

/-- What the loop ends with is not an array, and with its labels in place and both variables bound
that is all that can go wrong. -/
theorem failingLoop_fails_on_its_source : ∃ fault final,
    failingLoop.RunsTo none Value.nil (Frame.ofList [(⟨"t"⟩, Value.nil), (⟨"i"⟩, Value.nil)])
      (.faulted fault) final ∧
    (∃ operand found, fault = .notAnArray operand found) ∧
    (failingLoop.fold {}).instructions.Closed
      (Frame.ofList [(⟨"t"⟩, Value.nil), (⟨"i"⟩, Value.nil)]) ∧
    (failingLoop.fold {}).live.Closed
      (Frame.ofList [(⟨"t"⟩, Value.nil), (⟨"i"⟩, Value.nil)]) := by
  have closed : failingLoop.Closed (Frame.ofList [(⟨"t"⟩, Value.nil), (⟨"i"⟩, Value.nil)]) :=
    ⟨by decide, by decide, by decide⟩
  have ran : failingLoop.RunsTo none Value.nil
      (Frame.ofList [(⟨"t"⟩, Value.nil), (⟨"i"⟩, Value.nil)])
      (.faulted (.notAnArray (.var ⟨"i"⟩) .nil)) _ := ⟨12, rfl⟩
  obtain ⟨onSources, folded⟩ := closed_code_fails_on_sources failingLoop _ closed
  exact ⟨_, _, ran, onSources none Value.nil _ _ ran, folded {}⟩

end Code

end LinearIR
