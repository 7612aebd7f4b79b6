import LinearIR.Folding
import LinearIR.Proofs.Evaluation

/-!
# What is known is true

Knowledge is sound for a frame if every known variable holds the value of the operand it is known
to be. Narrowing by sound knowledge changes no effect, and the knowledge after an instruction is
sound for the frame after it.
-/

set_option autoImplicit false

namespace LinearIR

namespace Operand

variable {V : Type}

theorem mentions_iff_mem_vars {name : Variable} {operand : Operand V} :
    operand.mentions name = true ↔ name ∈ operand.vars := by
  induction operand using Operand.induction with
  | var candidate =>
      simp only [mentions, vars, beq_iff_eq, List.mem_singleton]
      exact eq_comm
  | constant | label | self => simp [mentions, vars]
  | array elements ih =>
      simp only [mentions, anyMentions_eq_any, List.any_eq_true, vars, listVars_eq_flatMap,
        List.mem_flatMap]
      constructor
      · intro mentions
        obtain ⟨element, member, mentioned⟩ := mentions
        exact ⟨element, member, (ih element member).mp mentioned⟩
      · intro reads
        obtain ⟨element, member, read⟩ := reads
        exact ⟨element, member, (ih element member).mpr read⟩

theorem valueIn_bind {operand : Operand Value} {stored : Variable}
    (unmentioned : operand.mentions stored = false) (frame : Frame Value) (value receiver : Value) :
    operand.valueIn (frame.bind stored value) receiver = operand.valueIn frame receiver := by
  apply valueIn_congr
  intro name read
  have differs : name ≠ stored := by
    intro same
    subst same
    rw [mentions_iff_mem_vars.mpr read] at unmentioned
    cases unmentioned
  exact frame.get?_bind_of_ne differs value

end Operand

theorem Narrowed.fact?_eq_some_iff {narrowed : Narrowed} {destination : Variable}
    {operand : Operand Value} :
    narrowed.fact? = some (destination, operand) ↔
      narrowed.instruction.result? = some destination ∧ narrowed.result? = some operand ∧
        operand.mentions destination = false := by
  unfold fact?
  constructor
  · intro fact
    split at fact
    · next written settled writes settles =>
      split at fact
      · cases fact
      · next unmentioned =>
        cases fact
        exact ⟨writes, settles, Bool.eq_false_iff.mpr unmentioned⟩
    · cases fact
  · rintro ⟨writes, settles, unmentioned⟩
    simp only [writes, settles, unmentioned, Bool.false_eq_true, if_false]

namespace Known

/-- Every known variable holds the value of the operand it is known to be. -/
def Sound (known : Known) (frame : Frame Value) (receiver : Value) : Prop :=
  ∀ name operand, known.get? name = some operand →
    ∃ value, frame.get? name = some value ∧ operand.valueIn frame receiver = .ok value

variable {known : Known} {frame : Frame Value} {receiver : Value}

theorem Sound.empty (frame : Frame Value) (receiver : Value) : Sound ∅ frame receiver := by
  intro name operand bound
  cases bound

theorem Sound.enter (sound : known.Sound frame receiver) (options : FoldOptions)
    (instruction : Instruction Value) : (known.enter options instruction).Sound frame receiver := by
  unfold Known.enter
  split
  · exact .empty frame receiver
  · exact sound

theorem get?_forget_eq_some_iff {stored name : Variable} {operand : Operand Value} :
    (known.forget stored).get? name = some operand ↔
      known.get? name = some operand ∧ name ≠ stored ∧ operand.mentions stored = false := by
  rw [forget, Bindings.get?_filter_eq_some_iff, Bindings.get?_erase]
  by_cases same : name = stored <;> simp [same]

/-- What is known after an instruction: the fact it told, and what was known before that neither
is nor reads the variable it has written. Nothing is known after a transfer of control. -/
theorem get?_leave_eq_some_iff {narrowed : Narrowed} {name : Variable} {operand : Operand Value} :
    (known.leave narrowed).get? name = some operand ↔
      narrowed.instruction.transfersControl = false ∧
        (narrowed.fact? = some (name, operand) ∨
          known.get? name = some operand ∧ ∀ destination ∈ narrowed.instruction.result?,
            name ≠ destination ∧ operand.mentions destination = false) := by
  have nothing : (∅ : Known).get? name = none := rfl
  cases transfers : narrowed.instruction.transfersControl with
  | true => simp [leave, transfers, nothing]
  | false =>
      cases fact : narrowed.fact? with
      | none =>
          cases written : narrowed.instruction.result? with
          | none => simp [leave, transfers, fact, written]
          | some destination =>
              simp [leave, transfers, fact, written, get?_forget_eq_some_iff]
      | some entry =>
          obtain ⟨destination, learned⟩ := entry
          obtain ⟨written, -, -⟩ := Narrowed.fact?_eq_some_iff.mp fact
          have leaves : known.leave narrowed =
              (known.forget destination).insert destination learned := by
            simp [leave, transfers, fact, written]
          rw [leaves, Bindings.get?_insert]
          by_cases same : name = destination
          · simp [same, written]
          · simp [same, Ne.symm same, written, get?_forget_eq_some_iff]

theorem Sound.insert (sound : known.Sound frame receiver) {name : Variable}
    {operand : Operand Value} {value : Value} (held : frame.get? name = some value)
    (evaluated : operand.valueIn frame receiver = .ok value) :
    Sound (Bindings.insert known name operand) frame receiver :=
  Bindings.forall_get?_insert sound ⟨value, held, evaluated⟩

/-- Resolving an operand by sound knowledge keeps its value, and the fault it meets first. -/
theorem Sound.valueIn_resolve (sound : known.Sound frame receiver) (operand : Operand Value) :
    (operand.resolve known).valueIn frame receiver = operand.valueIn frame receiver := by
  induction operand using Operand.induction with
  | var name =>
      simp only [Operand.resolve]
      cases bound : known.get? name with
      | none => rfl
      | some operand =>
          obtain ⟨value, held, evaluated⟩ := sound name operand bound
          rw [Option.getD_some, evaluated, Operand.valueIn_var, held]
  | constant value => rfl
  | array elements ih =>
      simp only [Operand.resolve, Operand.resolveAll_eq_map, Operand.valueIn_array, List.mapM_map]
      exact congrArg (Except.map Value.array) (Except.mapM_congr ih)
  | label name => rfl
  | self => rfl

end Known

/-- The fault of a narrowed instruction: the source of an extraction is named as narrowed. -/
def Fault.resolve (known : Known) : Fault Value → Fault Value
  | .notAnArray operand found => .notAnArray (operand.resolve known) found
  | .unboundVariable name => .unboundVariable name
  | .labelAsValue name => .labelAsValue name
  | .unknownLabel name => .unknownLabel name

theorem Fault.resolve_of_valueIn {operand : Operand Value} {frame : Frame Value}
    {receiver : Value} {fault : Fault Value} (known : Known)
    (faulted : operand.valueIn frame receiver = .error fault) : fault.resolve known = fault := by
  cases fault with
  | notAnArray named found =>
      exact absurd rfl (Operand.ne_notAnArray_of_valueIn faulted named found)
  | unboundVariable | labelAsValue | unknownLabel => rfl

theorem Known.Sound.effect_narrow {known : Known} {frame : Frame Value} {receiver : Value}
    (sound : known.Sound frame receiver) (instruction : Instruction Value) :
    (instruction.narrow known).instruction.effect frame receiver =
      (instruction.effect frame receiver).mapError (Fault.resolve known) := by
  cases instruction with
  | copy result source =>
      simp only [Instruction.narrow, Instruction.mapOperands, Instruction.effect,
        sound.valueIn_resolve]
      cases evaluated : source.valueIn frame receiver with
      | error fault => exact congrArg Except.error (Fault.resolve_of_valueIn known evaluated).symm
      | ok value => rfl
  | getArray result array index takeRest =>
      simp only [Instruction.narrow, Instruction.mapOperands, Instruction.effect,
        sound.valueIn_resolve]
      cases evaluated : array.valueIn frame receiver with
      | error fault => exact congrArg Except.error (Fault.resolve_of_valueIn known evaluated).symm
      | ok whole =>
          simp only [bind, Except.bind]
          cases whole.extract? index.toNat takeRest <;> rfl
  | label name => rfl
  | jump target => rfl
  | beq first second target =>
      simp only [Instruction.narrow, Instruction.mapOperands, Instruction.effect,
        sound.valueIn_resolve]
      cases firstEvaluated : first.valueIn frame receiver with
      | error fault =>
          exact congrArg Except.error (Fault.resolve_of_valueIn known firstEvaluated).symm
      | ok firstValue =>
          cases secondEvaluated : second.valueIn frame receiver with
          | error fault =>
              exact congrArg Except.error (Fault.resolve_of_valueIn known secondEvaluated).symm
          | ok secondValue => rfl
  | ret operand =>
      simp only [Instruction.narrow, Instruction.mapOperands, Instruction.effect,
        sound.valueIn_resolve]
      cases evaluated : operand.valueIn frame receiver with
      | error fault => exact congrArg Except.error (Fault.resolve_of_valueIn known evaluated).symm
      | ok value => rfl

theorem Instruction.Performs.narrow {known : Known} {instruction : Instruction Value}
    {frame : Frame Value} {receiver : Value} {effect : Effect}
    (performs : Performs frame receiver instruction effect) (sound : known.Sound frame receiver) :
    Performs frame receiver (instruction.narrow known).instruction effect := by
  rw [← effect_eq_ok_iff, sound.effect_narrow, effect_eq_ok_iff.mpr performs]
  rfl

theorem Operand.valueIn_extract {operand part : Operand Value} {frame : Frame Value}
    {receiver whole value : Value} {index : Nat} {takeRest : Bool}
    (extracted : operand.extract index takeRest = .ok part)
    (evaluated : operand.valueIn frame receiver = .ok whole)
    (taken : whole.extract? index takeRest = some value) :
    part.valueIn frame receiver = .ok value := by
  cases operand with
  | var | label | self => cases extracted
  | constant held =>
      cases evaluated
      simp only [extract, taken, Except.ok.injEq] at extracted
      subst extracted
      rfl
  | array elements =>
      rw [valueIn_array] at evaluated
      obtain ⟨values, elementsEvaluated, rfl⟩ := Except.exists_ok_of_map evaluated
      cases extracted
      cases taken
      cases takeRest with
      | true =>
          rw [if_pos rfl, valueIn_array, Except.mapM_drop elementsEvaluated]
          rfl
      | false =>
          have sameElement := Except.getElem?_of_mapM elementsEvaluated index
          cases found : elements[index]? <;> cases foundValue : values[index]? <;>
            simp_all

theorem Instruction.valueIn_settled {instruction : Instruction Value} {operand : Operand Value}
    {frame : Frame Value} {receiver : Value} {name : Variable} {value : Value}
    (settled : instruction.settled? = some operand)
    (performs : instruction.Performs frame receiver (.store name value)) :
    operand.valueIn frame receiver = .ok value := by
  cases performs with
  | copy evaluated =>
      cases settled
      exact evaluated
  | getArray evaluated taken =>
      exact Operand.valueIn_extract (settled?_getArray_eq_some_iff.mp settled) evaluated taken

namespace Known.Sound

variable {known : Known} {frame : Frame Value} {receiver : Value}

theorem leave_store (sound : known.Sound frame receiver) {narrowed : Narrowed}
    (settled : narrowed.result? = narrowed.instruction.settled?) {name : Variable} {value : Value}
    (performs : narrowed.instruction.Performs frame receiver (.store name value)) :
    (known.leave narrowed).Sound (frame.bind name value) receiver := by
  have writes := performs.result?_eq
  intro other operand bound
  obtain ⟨-, fact | ⟨before, kept⟩⟩ := get?_leave_eq_some_iff.mp bound
  · obtain ⟨writes', settles, unmentioned⟩ := Narrowed.fact?_eq_some_iff.mp fact
    rw [writes] at writes'
    cases writes'
    refine ⟨value, frame.get?_bind_self name value, ?_⟩
    rw [Operand.valueIn_bind unmentioned]
    exact Instruction.valueIn_settled (settled.symm.trans settles) performs
  · -- Knowledge that survives the write is about operands that do not read its destination.
    obtain ⟨differs, unmentioned⟩ := kept name writes
    obtain ⟨held, found, evaluated⟩ := sound other operand before
    refine ⟨held, ?_, ?_⟩
    · rw [frame.get?_bind_of_ne differs, found]
    · rw [Operand.valueIn_bind unmentioned, evaluated]

theorem leave_skip (sound : known.Sound frame receiver) {narrowed : Narrowed}
    (performs : narrowed.instruction.Performs frame receiver .skip) :
    (known.leave narrowed).Sound frame receiver := by
  obtain ⟨instruction, result⟩ := narrowed
  cases performs with
  | label => exact sound
  | differ => exact .empty frame receiver

end Known.Sound

end LinearIR
