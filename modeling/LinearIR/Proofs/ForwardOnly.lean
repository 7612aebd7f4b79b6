import LinearIR.Proofs.Folding.Lockstep
import LinearIR.Proofs.Inlining.Layout
import LinearIR.Proofs.StepLimit

/-!
# Forward jumps

In code whose jumps all lead forwards, each executed instruction leaves at least one more position
behind, so no run executes more instructions than the code has. A fragment keeps the order of the
callee's code and leaves it at the end, so it jumps forwards if the callee does.
-/

set_option autoImplicit false

namespace LinearIR

/-- Every jump arrives behind itself, if it arrives at all. -/
def Code.ForwardOnly {V : Type} (code : Code V) : Prop :=
  ∀ position < code.length, ∀ instruction ∈ code[position]?, ∀ target ∈ instruction.target?,
    ∀ label ∈ code.labelPosition? target, position < label

instance {V : Type} (code : Code V) : Decidable code.ForwardOnly :=
  inferInstanceAs (Decidable (∀ position < code.length, _))

theorem Code.ForwardOnly.lt {V : Type} {code : Code V} (forward : code.ForwardOnly)
    {position label : Nat} {instruction : Instruction V} {target : Label}
    (found : code[position]? = some instruction) (jumps : instruction.target? = some target)
    (labelFound : code.labelPosition? target = some label) : position < label :=
  forward position (List.getElem?_eq_some_iff.mp found).1 instruction found target jumps label
    labelFound

/-! ## Running forwards -/

section

variable {γ V : Type} [ExecutionContext γ V] [ValueLike V] {code : Code V} {receiver : V}

theorem Instruction.target?_of_execute {instruction : Instruction V} {context after : γ}
    {target : Label}
    (executed : (instruction.execute receiver).run.run context = (.ok (some target), after)) :
    instruction.target? = some target := by
  cases instruction with
  | copy | ret =>
      obtain ⟨_, _, -, executed⟩ := Execution.exists_of_bind executed
      obtain ⟨_, _, -, executed⟩ := Execution.exists_of_bind executed
      cases executed
  | getArray result array index takeRest =>
      obtain ⟨_, _, -, executed⟩ := Execution.exists_of_bind executed
      split at executed
      · obtain ⟨_, _, -, executed⟩ := Execution.exists_of_bind executed
        cases executed
      · cases executed
  | label => cases executed
  | jump => cases executed; rfl
  | beq =>
      obtain ⟨_, _, -, executed⟩ := Execution.exists_of_bind executed
      obtain ⟨_, _, -, executed⟩ := Execution.exists_of_bind executed
      split at executed <;> cases executed
      rfl

namespace RunState

/-- So many positions lie behind a run that has not ended. -/
def Beyond (passed : Nat) : RunState γ V → Prop
  | .running position _ => passed ≤ position
  | .ended _ _ => True

omit [ExecutionContext γ V] [ValueLike V] in
theorem beyond_arrive {passed position : Nat} (beyond : passed ≤ position) (code : Code V)
    (context : γ) : (arrive code position context).Beyond passed := by
  unfold arrive
  split
  · exact beyond
  · trivial

end RunState

namespace Code.ForwardOnly

/-- The step lemma: control goes on to the next instruction, or to a label farther on. -/
theorem beyond_step (forward : code.ForwardOnly) {passed : Nat} {state : RunState γ V}
    (beyond : state.Beyond passed) : (RunState.step code receiver state).Beyond (passed + 1) := by
  cases state with
  | ended outcome context => trivial
  | running position context =>
      have here : passed ≤ position := beyond
      unfold RunState.step
      dsimp only
      split
      · trivial
      · next instruction found =>
        split
        · next target? after executed =>
          cases target? with
          | some target =>
              have jumps := Instruction.target?_of_execute executed
              simp only [RunState.follow]
              cases labelFound : code.labelPosition? target with
              | none => trivial
              | some label =>
                  have farther := forward.lt found jumps labelFound
                  exact RunState.beyond_arrive (Nat.lt_of_le_of_lt here farther) code after
          | none =>
              simp only [RunState.follow]
              split
              · rcases ExecutionContext.takeReturn.run after with ⟨_ | value, taken⟩ <;> trivial
              · exact RunState.beyond_arrive (Nat.succ_le_succ here) code after
        · trivial

/-- The run lemma. -/
theorem beyond_executes (forward : code.ForwardOnly) {count passed : Nat}
    {start last : RunState γ V} (executes : RunState.Executes code receiver count start last)
    (beyond : start.Beyond passed) : last.Beyond (passed + count) := by
  induction executes generalizing passed with
  | none => exact beyond
  | @next count position context instruction last found rest ih =>
      rw [Nat.add_comm count 1, ← Nat.add_assoc]
      exact ih (forward.beyond_step beyond)

/-- A run that executed as many instructions as the code has would be past its end. -/
theorem endsAfter (forward : code.ForwardOnly) (receiver : V) (context : γ) :
    ∃ count ≤ code.length, ∃ outcome final,
      code.EndsAfter receiver context count outcome final := by
  rcases code.endsAfter_or_executes receiver context code.length with ends | ⟨position, cut, goesOn⟩
  · exact ends
  · have inside : position < code.length :=
      goesOn.uncut (RunState.uncut_arrive code 0 context)
    have outside : 0 + code.length ≤ position :=
      forward.beyond_executes goesOn (RunState.beyond_arrive (Nat.le_refl 0) code context)
    omega

end Code.ForwardOnly

end

/-! ## Jumping forwards in a fragment -/

theorem Instruction.Renames.exists_target? {table : RenamingTable}
    {instruction renamed : Instruction Value} (renames : instruction.Renames table renamed)
    {new : Label} (jumps : renamed.target? = some new) :
    ∃ old, instruction.target? = some old ∧ table.labels.get? old = some new := by
  cases renames with
  | jump image | beq _ _ image => cases jumps; exact ⟨_, rfl, image⟩
  | copy | getArray | label | ret => cases jumps

namespace RenamingTable

variable {table : RenamingTable} {pairs : List (Variable × Operand Value)}
  {code passed body : Code Value}

theorem eq_copy_of_mem_passArguments (passedArguments : table.passArguments pairs = .ok passed) :
    ∀ instruction ∈ passed, ∃ image argument, instruction = .copy image argument := by
  induction pairs generalizing passed with
  | nil => cases passedArguments; nofun
  | cons pair rest ih =>
      obtain ⟨image, following, -, restPassed, rfl⟩ := passArguments_cons passedArguments
      exact List.forall_mem_cons.mpr ⟨⟨image, pair.2, rfl⟩, ih restPassed⟩

/-- Only the callee's part of a fragment jumps. -/
theorem getElem?_fragment_of_target? (passedArguments : table.passArguments pairs = .ok passed)
    {position : Nat} {instruction : Instruction Value} {target : Label}
    (found : (passed ++ body ++ [.label table.exitLabel])[position]? = some instruction)
    (jumps : instruction.target? = some target) :
    ∃ offset, position = passed.length + offset ∧ body[offset]? = some instruction := by
  rw [List.append_assoc] at found
  rcases Nat.lt_or_ge position passed.length with before | after
  · rw [List.getElem?_append_left before] at found
    obtain ⟨image, argument, rfl⟩ :=
      eq_copy_of_mem_passArguments passedArguments instruction (List.mem_of_getElem? found)
    cases jumps
  · obtain ⟨offset, rfl⟩ := Nat.exists_eq_add_of_le after
    rw [List.getElem?_append_right after, Nat.add_sub_cancel_left] at found
    rcases Nat.lt_or_ge offset body.length with within | behind
    · rw [List.getElem?_append_left within] at found
      exact ⟨offset, rfl, found⟩
    · rw [List.getElem?_append_right behind] at found
      obtain rfl := List.mem_singleton.mp (List.mem_of_getElem? found)
      cases jumps

/-- The labels of a callee stand in a fragment as far on as their instructions do. -/
theorem labelPosition?_fragment (passedArguments : table.passArguments pairs = .ok passed)
    (renamedBody : table.renameBody code = .ok body) (apart : table.LabelsApart)
    {old new : Label} (image : table.labels.get? old = some new) :
    Code.labelPosition? new (passed ++ body ++ [.label table.exitLabel]) =
      (code.labelPosition? old).map fun label => passed.length + code.renamedPosition label := by
  have undefinedBefore : passed.Undefined new := by
    intro instruction member
    obtain ⟨image, argument, rfl⟩ :=
      eq_copy_of_mem_passArguments passedArguments instruction member
    rfl
  have undefinedBehind : Code.Undefined (V := Value) [.label table.exitLabel] new := by
    have exitDiffers : table.exitLabel ≠ new := fun same => apart.exit old (same ▸ image)
    simpa [Code.Undefined, Instruction.defines] using exitDiffers
  rw [Code.labelPosition?_append, Code.labelPosition?_eq_none_iff.mpr undefinedBehind,
    Code.labelPosition?_append, Code.labelPosition?_eq_none_iff.mpr undefinedBefore,
    labelPosition?_renameBody renamedBody apart image]
  cases code.labelPosition? old <;> rfl

theorem labelPosition?_exitLabel (table : RenamingTable) (before : Code Value) :
    Code.labelPosition? table.exitLabel (before ++ [.label table.exitLabel]) =
      some before.length := by
  simp [Code.labelPosition?_append, Code.labelPosition?, Instruction.defines]

end RenamingTable

/-- A jump of the fragment is one of the callee's, which leads as far forwards as it did there, or
it leads to the exit, which comes last. -/
theorem Code.ForwardOnly.fragment {table : RenamingTable} {pairs : List (Variable × Operand Value)}
    {code passed body : Code Value} (forward : code.ForwardOnly)
    (passedArguments : table.passArguments pairs = .ok passed)
    (renamedBody : table.renameBody code = .ok body) (apart : table.LabelsApart) :
    Code.ForwardOnly (passed ++ body ++ [.label table.exitLabel]) := by
  intro position _ instruction found target jumps label labelFound
  obtain ⟨offset, rfl, inBody⟩ :=
    RenamingTable.getElem?_fragment_of_target? passedArguments found jumps
  rcases RenamingTable.exists_of_getElem?_renameBody renamedBody inBody with
    ⟨origin, original, originFound, renames, rfl⟩ | rfl
  · obtain ⟨old, originJumps, image⟩ := renames.exists_target? jumps
    rw [RenamingTable.labelPosition?_fragment passedArguments renamedBody apart image] at labelFound
    obtain ⟨destination, destinationFound, rfl⟩ := Option.map_eq_some_iff.mp labelFound
    have farther := forward.lt originFound originJumps destinationFound
    exact Nat.add_lt_add_left (code.renamedPosition_lt farther) _
  · cases jumps
    rw [RenamingTable.labelPosition?_exitLabel] at labelFound
    cases labelFound
    rw [List.length_append]
    exact Nat.add_lt_add_left (List.getElem?_eq_some_iff.mp inBody).1 _

/-- Code that jumps forwards only comes to an end. If every jump of a code leads to an undefined
label or to one whose last definition is farther on, then a run without a limit ends after no more
instructions than the code has, from every frame and for every receiver, so a limit of as many
never cuts a run off; and whatever fragment a call of a callee with this code is replaced by, its
jumps lead forwards too. -/
theorem Code.forward_code_terminates (code : Code Value) (forward : code.ForwardOnly) :
    (∀ (receiver : Value) (frame : Frame Value), ∃ count ≤ code.length, ∃ outcome final,
      code.EndsAfter receiver frame count outcome final ∧
      ∀ limit, code.length ≤ limit → code.run (some limit) receiver frame = (outcome, final) ∧
        ∀ steps bound, outcome ≠ .stepLimit steps bound) ∧
    ∀ (caller callee : Scope) (receiver : Operand Value) (arguments : List (Operand Value))
      (result? : Option Variable) (fragment : Code Value) (after : Scope),
      callee.instructions = code →
      caller.inline callee receiver arguments result? = .ok (fragment, after) →
      fragment.ForwardOnly := by
  constructor
  · intro receiver frame
    obtain ⟨count, within, outcome, final, ends⟩ := forward.endsAfter receiver frame
    refine ⟨count, within, outcome, final, ends, fun limit enough => ?_⟩
    exact ⟨ends.run_eq (Nat.le_trans within enough), ends.ne_stepLimit⟩
  · intro caller callee receiver arguments result? fragment after same inlined
    subst same
    obtain ⟨table, passed, body, built, -, passedArguments, renamedBody, rfl⟩ :=
      Scope.inline_eq_ok_iff.mp inlined
    have serves := Scope.serves_of_renamingTable_eq built
    exact forward.fragment passedArguments renamedBody serves.labelsApart

/-- Its label is defined twice, and only the later definition is farther on than the jump. Another
jump has no label at all. -/
def skipAhead : Scope where
  name := "skipAhead"
  params := [⟨"a"⟩]
  instructions := [.label ⟨"out"⟩, .beq (.var ⟨"a"⟩) (.constant .nil) ⟨"out"⟩, .ret (.var ⟨"a"⟩),
    .jump ⟨"nowhere"⟩, .label ⟨"out"⟩, .ret .self]
  nextTemporary := 0
  nextLabel := 0

theorem skipAhead_jumps_forwards :
    (∃ count ≤ 6, skipAhead.instructions.EndsAfter (.array [])
      (Frame.ofList [(⟨"a"⟩, Value.nil)]) count (.returned (.array []))
      (Frame.ofList [(⟨"a"⟩, Value.nil)])) ∧
    ∃ fragment after, (Scope.create "main" []).inline skipAhead .self [.constant .nil] none =
      .ok (fragment, after) ∧ fragment.length = 10 ∧ fragment.ForwardOnly := by
  obtain ⟨ends, inlines⟩ :=
    Code.forward_code_terminates skipAhead.instructions (by decide)
  constructor
  · obtain ⟨count, within, outcome, final, endsAfter, limited⟩ :=
      ends (.array []) (Frame.ofList [(⟨"a"⟩, Value.nil)])
    have ran : skipAhead.instructions.run (some 6) (.array []) (Frame.ofList [(⟨"a"⟩, Value.nil)]) =
        (.returned (.array []), Frame.ofList [(⟨"a"⟩, Value.nil)]) := rfl
    rw [(limited 6 (Nat.le_refl 6)).1] at ran
    cases ran
    exact ⟨count, within, endsAfter⟩
  · obtain ⟨fragment, after, inlined⟩ : ∃ fragment after, (Scope.create "main" []).inline skipAhead
        .self [.constant .nil] none = .ok (fragment, after) := Scope.exists_inline _ _ _ _ rfl
    exact ⟨fragment, after, inlined, by cases inlined; rfl, inlines _ _ _ _ _ _ _ rfl inlined⟩

end LinearIR
