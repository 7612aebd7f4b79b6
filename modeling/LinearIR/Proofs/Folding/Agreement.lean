import LinearIR.Proofs.Folding.Soundness

/-!
# Narrowing agrees with execution

What is found out about one instruction before the code runs is what executing it then does,
wherever the knowledge used is true. The narrowed instruction executes alike, and an operand that
settles the destination has the value that is stored there.
-/

set_option autoImplicit false

namespace LinearIR

namespace Operand

/-- An operand with known parts never turns out to be no array. -/
theorem exists_part_of_extract {operand part : Operand Value} {frame : Frame Value}
    {receiver whole : Value} {index : Nat} {takeRest : Bool}
    (extracted : operand.extract index takeRest = .ok part)
    (evaluated : operand.valueIn frame receiver = .ok whole) :
    ∃ value, whole.extract? index takeRest = some value := by
  cases operand with
  | constant held =>
      cases evaluated
      unfold extract at extracted
      dsimp only at extracted
      split at extracted
      · next value taken => exact ⟨value, taken⟩
      · cases extracted
  | array elements =>
      rw [valueIn_array] at evaluated
      obtain ⟨values, -, rfl⟩ := Except.exists_ok_of_map evaluated
      exact ⟨_, rfl⟩
  | var | label | self => cases extracted

end Operand

/-- An instruction whose result is settled stores the value of the settled operand. -/
theorem Instruction.Performs.stores_settled {instruction : Instruction Value} {frame : Frame Value}
    {receiver : Value} {effect : Effect} {operand : Operand Value}
    (performs : Performs frame receiver instruction effect)
    (settled : instruction.settled? = some operand) :
    ∃ destination value, effect = .store destination value ∧
      instruction.result? = some destination ∧ operand.valueIn frame receiver = .ok value := by
  cases performs with
  | copy evaluated => exact ⟨_, _, rfl, rfl, valueIn_settled settled (.copy evaluated)⟩
  | getArray evaluated taken =>
      exact ⟨_, _, rfl, rfl, valueIn_settled settled (.getArray evaluated taken)⟩
  | label | jump | equal | differ | ret => cases settled

namespace Known.Sound

variable {known : Known} {frame : Frame Value} {receiver : Value}

theorem executeOn_narrow (sound : known.Sound frame receiver) (instruction : Instruction Value) :
    (instruction.narrow known).instruction.executeOn frame receiver =
      ((instruction.executeOn frame receiver).1.mapError (Fault.resolve known),
        (instruction.executeOn frame receiver).2) := by
  rw [Instruction.executeOn_eq, Instruction.executeOn_eq, sound.effect_narrow]
  cases instruction.effect frame receiver <;> rfl

theorem stores_settled (sound : known.Sound frame receiver) {instruction : Instruction Value}
    {operand : Operand Value} (settled : (instruction.narrow known).result? = some operand)
    {target? : Option Label} {after : Frame Value}
    (executed : instruction.executeOn frame receiver = (.ok target?, after)) :
    ∃ destination value, instruction.result? = some destination ∧
      operand.valueIn frame receiver = .ok value ∧ after = frame.bind destination value := by
  rw [Instruction.executeOn_eq] at executed
  cases performed : instruction.effect frame receiver with
  | error fault => rw [performed] at executed; cases executed
  | ok effect =>
      rw [performed] at executed
      have narrowed := (Instruction.effect_eq_ok_iff.mp performed).narrow sound
      obtain ⟨destination, value, rfl, writes, evaluated⟩ := narrowed.stores_settled settled
      cases executed
      rw [Instruction.narrow, Instruction.result?_mapOperands] at writes
      exact ⟨destination, value, writes, evaluated, rfl⟩

end Known.Sound

namespace Instruction

variable {known : Known} {frame : Frame Value} {receiver : Value} {result : Variable}
  {array : Operand Value} {index : UInt64} {takeRest : Bool}

/-- An extraction executes as the values of its source say: parts past the end are nil and the
empty array, and what is no array has none. -/
theorem executeOn_getArray {whole : Value} (evaluated : array.valueIn frame receiver = .ok whole) :
    (getArray result array index takeRest).executeOn frame receiver =
      match whole.extract? index.toNat takeRest with
      | some part => (.ok none, frame.bind result part)
      | none => (.error (.notAnArray array whole.kind), frame) := by
  rw [executeOn_eq]
  simp only [effect, evaluated, bind, Except.bind]
  cases whole.extract? index.toNat takeRest <;> rfl

/-- A settled extraction has a part of the source's value, the one that is taken when it runs. -/
theorem valueIn_settled_getArray (sound : known.Sound frame receiver) {whole : Value}
    (evaluated : array.valueIn frame receiver = .ok whole) {operand : Operand Value}
    (settled : ((getArray result array index takeRest).narrow known).result? = some operand) :
    ∃ part, whole.extract? index.toNat takeRest = some part ∧
      operand.valueIn frame receiver = .ok part := by
  have resolved := (sound.valueIn_resolve array).trans evaluated
  rw [narrow, mapOperands, settled?_getArray_eq_some_iff] at settled
  obtain ⟨value, taken⟩ := Operand.exists_part_of_extract settled resolved
  exact ⟨value, taken, Operand.valueIn_extract settled resolved taken⟩

end Instruction

/-- Narrowing by true knowledge and executing agree on every instruction. The narrowed instruction
goes to the same label and leaves the same frame, or meets the same fault, which names the source
of an extraction as narrowed. What an instruction stores is the value of the operand that settles
it. An extraction from an array stores, settled or not, the element at the index or the elements
from there on, which are nil and none past the end; one from no array is never settled. -/
theorem Known.Sound.narrowing_agrees_with_execution {known : Known} {frame : Frame Value}
    {receiver : Value} (sound : known.Sound frame receiver) :
    (∀ instruction : Instruction Value,
      (instruction.narrow known).instruction.executeOn frame receiver =
        ((instruction.executeOn frame receiver).1.mapError (Fault.resolve known),
          (instruction.executeOn frame receiver).2)) ∧
    (∀ (instruction : Instruction Value) (operand : Operand Value) (target? : Option Label)
        (after : Frame Value),
      (instruction.narrow known).result? = some operand →
      instruction.executeOn frame receiver = (.ok target?, after) →
      ∃ destination value, instruction.result? = some destination ∧
        operand.valueIn frame receiver = .ok value ∧ after = frame.bind destination value) ∧
    (∀ (result : Variable) (array : Operand Value) (index : UInt64) (takeRest : Bool)
        (elements : List Value),
      array.valueIn frame receiver = .ok (.array elements) →
      let part := if takeRest then Value.array (elements.drop index.toNat)
        else elements[index.toNat]?.getD .nil
      (Instruction.getArray result array index takeRest).executeOn frame receiver =
          (.ok none, frame.bind result part) ∧
        ∀ operand ∈ ((Instruction.getArray result array index takeRest).narrow known).result?,
          operand.valueIn frame receiver = .ok part) ∧
    (∀ (result : Variable) (array : Operand Value) (index : UInt64) (takeRest : Bool)
        (held : Scalar),
      array.valueIn frame receiver = .ok (.scalar held) →
      (Instruction.getArray result array index takeRest).executeOn frame receiver =
          (.error (.notAnArray array held.kind), frame) ∧
        ((Instruction.getArray result array index takeRest).narrow known).result? = none) := by
  refine ⟨sound.executeOn_narrow, fun _ _ _ _ settled => sound.stores_settled settled, ?_, ?_⟩
  · intro result array index takeRest elements evaluated part
    have taken : (Value.array elements).extract? index.toNat takeRest = some part := rfl
    refine ⟨by rw [Instruction.executeOn_getArray evaluated, taken], fun operand settled => ?_⟩
    obtain ⟨found, found_eq, operandEvaluated⟩ :=
      Instruction.valueIn_settled_getArray sound evaluated settled
    rw [taken] at found_eq
    cases found_eq
    exact operandEvaluated
  · intro result array index takeRest held evaluated
    refine ⟨Instruction.executeOn_getArray evaluated, Option.eq_none_iff_forall_not_mem.mpr ?_⟩
    intro operand settled
    obtain ⟨part, taken, -⟩ := Instruction.valueIn_settled_getArray sound evaluated settled
    cases taken

/-- A pair and its second component, both of them known. -/
def knownPair : Known :=
  Bindings.insert (Bindings.insert ∅ ⟨"second"⟩ (.constant (.scalar (.str "s")))) ⟨"pair"⟩
    (.array [.self, .var ⟨"second"⟩])

def pairFrame : Frame Value :=
  .ofList [(⟨"second"⟩, .scalar (.str "s")), (⟨"pair"⟩, .array [.nil, .scalar (.str "s")])]

/-- The rest behind the pair is known to be empty, and is; a known string that is extracted from
is named in place of its variable. -/
theorem knownPair_agrees : knownPair.Sound pairFrame Value.nil ∧
    (Instruction.getArray ⟨"rest"⟩ (.var ⟨"pair"⟩) 2 true).executeOn pairFrame Value.nil =
      (.ok none, pairFrame.bind ⟨"rest"⟩ (.array [])) ∧
    (∃ operand,
      ((Instruction.getArray ⟨"rest"⟩ (.var ⟨"pair"⟩) 2 true).narrow knownPair).result? =
        some operand ∧ operand.valueIn pairFrame Value.nil = .ok (.array [])) ∧
    ((Instruction.getArray ⟨"first"⟩ (.var ⟨"second"⟩) 0 false).narrow
        knownPair).instruction.executeOn pairFrame Value.nil =
      (.error (.notAnArray (.constant (.scalar (.str "s"))) .string), pairFrame) := by
  have second : pairFrame.get? ⟨"second"⟩ = some (.scalar (.str "s")) := rfl
  have pair : pairFrame.get? ⟨"pair"⟩ = some (.array [.nil, .scalar (.str "s")]) := rfl
  have sound : knownPair.Sound pairFrame Value.nil :=
    ((Known.Sound.empty pairFrame Value.nil).insert second rfl).insert pair rfl
  obtain ⟨alike, -, arrays, -⟩ := sound.narrowing_agrees_with_execution
  obtain ⟨executes, settled⟩ :=
    arrays ⟨"rest"⟩ (.var ⟨"pair"⟩) 2 true [.nil, .scalar (.str "s")] rfl
  exact ⟨sound, executes, ⟨.array [], rfl, settled _ rfl⟩, alike (.getArray ⟨"first"⟩ _ 0 false)⟩

end LinearIR
