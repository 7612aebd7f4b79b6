import LinearIR.Proofs.Folding.Removal

/-!
# Closed straight-line code folds away

Code that starts with nothing bound and only assigns knows every variable it has bound, as a
constant or a literal of constants. So every assignment is settled, no narrowed instruction reads
a variable, and only the return is left.
-/

set_option autoImplicit false

namespace LinearIR

namespace Operand

variable {V : Type}

mutual

def mentionsSelf : Operand V → Bool
  | .self => true
  | .array elements => anyMentionsSelf elements
  | .var _ | .constant _ | .label _ => false

def anyMentionsSelf : List (Operand V) → Bool
  | [] => false
  | first :: rest => mentionsSelf first || anyMentionsSelf rest

end

theorem anyMentionsSelf_eq_false_iff {elements : List (Operand V)} :
    anyMentionsSelf elements = false ↔ ∀ element ∈ elements, element.mentionsSelf = false := by
  induction elements with
  | nil => simp [anyMentionsSelf]
  | cons first rest ih => simp [anyMentionsSelf, ih]

/-- A constant, or a literal of such operands: the value depends on nothing that runs. -/
inductive Ground : Operand V → Prop where
  | constant {value} : Ground (.constant value)
  | array {elements} : (∀ element ∈ elements, Ground element) → Ground (.array elements)

theorem Ground.vars_eq_nil {operand : Operand V} (ground : operand.Ground) :
    operand.vars = [] := by
  induction ground with
  | constant => rfl
  | array _ ih => simpa [vars] using ih

theorem Ground.labels_eq_nil {operand : Operand V} (ground : operand.Ground) :
    operand.labels = [] := by
  induction ground with
  | constant => rfl
  | array _ ih => simpa [labels] using ih

theorem Ground.mentions_eq_false {operand : Operand V} (ground : operand.Ground)
    (name : Variable) : operand.mentions name = false := by
  rw [Bool.eq_false_iff, Ne, mentions_iff_mem_vars, ground.vars_eq_nil]
  exact List.not_mem_nil

theorem Ground.valueIn_eq {operand : Operand Value} (ground : operand.Ground)
    (first second : Frame Value) (receiver receiver' : Value) :
    operand.valueIn first receiver = operand.valueIn second receiver' := by
  induction ground with
  | constant => rfl
  | array _ ih =>
      rw [valueIn_array, valueIn_array]
      exact congrArg (Except.map Value.array) (Except.mapM_congr ih)

/-- A ground operand that stands for an array settles every extraction from it. -/
theorem Ground.extract {operand : Operand Value} (ground : operand.Ground) {frame : Frame Value}
    {receiver whole part : Value} {index : Nat} {takeRest : Bool}
    (evaluated : operand.valueIn frame receiver = .ok whole)
    (taken : whole.extract? index takeRest = some part) :
    ∃ settled, operand.extract index takeRest = .ok settled ∧ settled.Ground := by
  cases ground with
  | constant =>
      cases evaluated
      exact ⟨.constant part, by simp only [Operand.extract, taken], .constant⟩
  | @array elements elementsGround =>
      refine ⟨_, rfl, ?_⟩
      cases takeRest with
      | true =>
          exact .array fun element member =>
            elementsGround element (List.mem_of_mem_drop member)
      | false =>
          cases found : elements[index]? with
          | none => exact .constant
          | some element => exact elementsGround element (List.mem_of_getElem? found)

end Operand

namespace Known

variable {known : Known} {frame : Frame Value} {receiver : Value}

/-- Exactly the bound variables are known, each as a ground operand that has its value. -/
structure Describes (known : Known) (frame : Frame Value) (receiver : Value) : Prop where
  sound : known.Sound frame receiver
  ground : ∀ name operand, known.get? name = some operand → operand.Ground
  bound : ∀ name value, frame.get? name = some value → ∃ operand, known.get? name = some operand

theorem describes_empty (receiver : Value) : Describes ∅ Frame.empty receiver where
  sound := .empty Frame.empty receiver
  ground _ _ bound := by cases bound
  bound _ _ held := by cases held

/-- An operand that has a value is resolved to a ground operand. -/
theorem Describes.resolve (describes : known.Describes frame receiver) {operand : Operand Value}
    (selfFree : operand.mentionsSelf = false) {value : Value}
    (evaluated : operand.valueIn frame receiver = .ok value) : (operand.resolve known).Ground := by
  induction operand using Operand.induction generalizing value with
  | var name =>
      rw [Operand.valueIn_var] at evaluated
      split at evaluated
      · next held holds =>
        obtain ⟨operand, bound⟩ := describes.bound name held holds
        rw [Operand.resolve, bound]
        exact describes.ground name operand bound
      · cases evaluated
  | constant constant => exact .constant
  | array elements ih =>
      rw [Operand.valueIn_array] at evaluated
      obtain ⟨values, elementsEvaluated, -⟩ := Except.exists_ok_of_map evaluated
      rw [Operand.resolve, Operand.resolveAll_eq_map]
      refine .array (List.forall_mem_map.mpr fun element member => ?_)
      obtain ⟨elementValue, elementEvaluated⟩ :=
        Except.exists_ok_of_mapM elementsEvaluated member
      exact ih element member (Operand.anyMentionsSelf_eq_false_iff.mp selfFree element member)
        elementEvaluated
  | label name => cases evaluated
  | self => cases selfFree

end Known

namespace Instruction

variable {V : Type}

def isAssignment : Instruction V → Bool
  | .copy .. | .getArray .. => true
  | .label _ | .jump _ | .beq .. | .ret _ => false

theorem isLabel_eq_false {instruction : Instruction V} (assigns : instruction.isAssignment = true) :
    instruction.isLabel = false := by
  cases instruction with
  | copy | getArray => rfl
  | label | jump | beq | ret => cases assigns

/-- The receiver occurs in no operand of the instruction. -/
def SelfFree (instruction : Instruction V) : Prop :=
  ∀ operand ∈ instruction.operands, operand.mentionsSelf = false

instance (instruction : Instruction V) : Decidable instruction.SelfFree :=
  inferInstanceAs (Decidable (∀ operand ∈ instruction.operands, _))

variable {instruction : Instruction Value} {frame : Frame Value} {receiver : Value}
  {effect : Effect}

theorem Performs.evaluates (performs : Performs frame receiver instruction effect) :
    ∀ operand ∈ instruction.operands, ∃ value, operand.valueIn frame receiver = .ok value := by
  cases performs <;> simp [operands, *]

theorem Performs.exists_store (performs : Performs frame receiver instruction effect)
    (assigns : instruction.isAssignment = true) : ∃ name value, effect = .store name value := by
  cases performs with
  | copy | getArray => exact ⟨_, _, rfl⟩
  | label | jump | equal | differ | ret => cases assigns

theorem Performs.narrow_ground {known : Known}
    (performs : Performs frame receiver instruction effect) (selfFree : instruction.SelfFree)
    (describes : known.Describes frame receiver) :
    ∀ operand ∈ (instruction.narrow known).instruction.operands, operand.Ground := by
  rw [Instruction.narrow, operands_mapOperands]
  refine List.forall_mem_map.mpr fun operand member => ?_
  obtain ⟨value, evaluated⟩ := performs.evaluates operand member
  exact describes.resolve (selfFree operand member) evaluated

theorem Performs.exists_settled {name : Variable} {value : Value}
    (performs : Performs frame receiver instruction (.store name value))
    (ground : ∀ operand ∈ instruction.operands, operand.Ground) :
    ∃ settled, instruction.settled? = some settled ∧ settled.Ground := by
  cases performs with
  | copy => exact ⟨_, rfl, ground _ List.mem_cons_self⟩
  | getArray evaluated taken =>
      obtain ⟨settled, extracted, settledGround⟩ :=
        (ground _ List.mem_cons_self).extract evaluated taken
      exact ⟨settled, settled?_getArray_eq_some_iff.mpr extracted, settledGround⟩

/-- An assignment that nothing stops is settled, as a ground operand. -/
theorem Performs.exists_fact {known : Known} {name : Variable} {value : Value}
    (performs : Performs frame receiver instruction (.store name value))
    (selfFree : instruction.SelfFree) (describes : known.Describes frame receiver) :
    ∃ settled, (instruction.narrow known).fact? = some (name, settled) ∧ settled.Ground := by
  have narrowed := performs.narrow describes.sound
  obtain ⟨settled, settles, ground⟩ :=
    narrowed.exists_settled (performs.narrow_ground selfFree describes)
  have result : (instruction.narrow known).result? = some settled := settles
  refine ⟨settled, ?_, ground⟩
  simp [Narrowed.fact?, narrowed.result?_eq, result, ground.mentions_eq_false]

end Instruction

namespace Known

variable {known : Known} {frame : Frame Value} {receiver : Value}

theorem Describes.leave (describes : known.Describes frame receiver)
    {instruction : Instruction Value} {name : Variable} {value : Value}
    (performs : instruction.Performs frame receiver (.store name value))
    (selfFree : instruction.SelfFree) :
    (known.leave (instruction.narrow known)).Describes (frame.bind name value) receiver := by
  obtain ⟨settled, fact, settledGround⟩ := performs.exists_fact selfFree describes
  have narrowed := performs.narrow describes.sound
  constructor
  case sound => exact describes.sound.leave_store rfl narrowed
  case ground =>
    intro other operand bound
    obtain ⟨-, told | ⟨before, -⟩⟩ := get?_leave_eq_some_iff.mp bound
    · rw [fact] at told
      cases told
      exact settledGround
    · exact describes.ground other operand before
  case bound =>
    intro other held holds
    have continues := narrowed.transfersControl_eq_false
    by_cases same : other = name
    · subst same
      exact ⟨settled, get?_leave_eq_some_iff.mpr ⟨continues, .inl fact⟩⟩
    · -- What is known is ground, so the write makes the folder forget the old fact only.
      rw [frame.get?_bind_of_ne same] at holds
      obtain ⟨operand, bound⟩ := describes.bound other held holds
      have ground := describes.ground other operand bound
      refine ⟨operand, get?_leave_eq_some_iff.mpr ⟨continues, .inr ⟨bound, ?_⟩⟩⟩
      intro destination writes
      rw [narrowed.result?_eq] at writes
      cases writes
      exact ⟨same, ground.mentions_eq_false name⟩

end Known

/-- If all instructions but the last are removable, the last is the live code. -/
theorem Folded.live_eq_singleton {folded : Folded} {count : Nat} {last : Instruction Value}
    (dropped : ∀ position < count, ∃ instruction,
      folded.marked[position]? = some (instruction, true))
    (kept : folded.marked[count]? = some (last, false))
    (length : folded.marked.length = count + 1) : folded.live = [last] := by
  have front : ∀ position ≤ count, folded.livePosition position = 0 := by
    intro position within
    induction position with
    | zero => rfl
    | succ position ih =>
        obtain ⟨instruction, found⟩ := dropped position within
        rw [livePosition_succ found]
        exact ih (Nat.le_of_succ_le within)
  have single : folded.live.length = 1 := by
    rw [← livePosition_of_ge (Nat.le_of_eq length), livePosition_succ kept,
      front count (Nat.le_refl count)]
    rfl
  have first := getElem?_live kept
  rw [front count (Nat.le_refl count)] at first
  obtain ⟨instruction, only⟩ := List.length_eq_one_iff.mp single
  rw [only] at first ⊢
  exact congrArg (fun instruction => [instruction]) (Option.some.inj first)

namespace Code

variable {code : Code Value} {options : FoldOptions} {receiver value : Value}
  {frame final : Frame Value}

theorem getElem?_fold_marked (position : Nat) :
    (code.fold options).marked[position]? = code[position]?.map fun instruction =>
      ((instruction.narrow (code.knownAt options position)).instruction,
        isRemovable (reads (code.fold options).instructions)
          (instruction.narrow (code.knownAt options position))) := by
  rw [fold_marked, List.getElem?_map, getElem?_narrowFrom, Option.map_map]
  rfl

/-- No instruction on the way to a return faults. -/
theorem exists_performs (returned : RunState.Ends code receiver (.arrive code 0 frame)
      (.returned value) final) {position steps : Nat} {reached : Frame Value}
    (running : RunState.advance code receiver steps (.arrive code 0 frame) =
      .running position reached) {instruction : Instruction Value}
    (found : code[position]? = some instruction) :
    ∃ effect, instruction.Performs reached receiver effect := by
  obtain ⟨taken, ended⟩ := returned
  cases performed : instruction.effect reached receiver with
  | ok effect => exact ⟨effect, Instruction.effect_eq_ok_iff.mp performed⟩
  | error fault =>
      have faulted : RunState.advance code receiver (steps + 1) (.arrive code 0 frame) =
          .ended (.faulted fault) reached := by
        rw [RunState.advance_succ', running, RunState.step_running found, performed]
        rfl
      cases (RunState.ended_unique ended faulted).1

/-- So many assignments, followed by a return, none of which uses the receiver. -/
structure ReturnsAfter (code : Code Value) (count : Nat) (operand : Operand Value) : Prop where
  assigns : ∀ position < count, ∃ instruction, code[position]? = some instruction ∧
    instruction.isAssignment = true
  last : code[count]? = some (.ret operand)
  length : code.length = count + 1
  selfFree : ∀ instruction ∈ code, instruction.SelfFree

variable {count : Nat} {operand : Operand Value}

theorem returnsAfter_append {assignments : Code Value}
    (assigns : ∀ instruction ∈ assignments, instruction.isAssignment = true)
    (selfFree : ∀ instruction ∈ assignments ++ [.ret operand], instruction.SelfFree) :
    ReturnsAfter (assignments ++ [.ret operand]) assignments.length operand where
  assigns position within :=
    ⟨assignments[position],
      by rw [List.getElem?_append_left within, List.getElem?_eq_getElem within],
      assigns _ (List.getElem_mem within)⟩
  last := List.getElem?_concat_length
  length := by rw [List.length_append, List.length_singleton]
  selfFree := selfFree

theorem ReturnsAfter.enter_eq (straight : code.ReturnsAfter count operand) {position : Nat}
    (within : position ≤ count) {instruction : Instruction Value}
    (found : code[position]? = some instruction) (known : Known) (options : FoldOptions) :
    known.enter options instruction = known := by
  have notLabel : instruction.isLabel = false := by
    rcases Nat.lt_or_eq_of_le within with before | atEnd
    · obtain ⟨assignment, here, assigns⟩ := straight.assigns position before
      rw [found] at here
      cases here
      exact Instruction.isLabel_eq_false assigns
    · rw [atEnd, straight.last] at found
      cases found
      rfl
  simp [Known.enter, notLabel]

/-- On the way to the return every position is reached, with all that is bound known. -/
theorem ReturnsAfter.reaches (straight : code.ReturnsAfter count operand)
    (returned : RunState.Ends code receiver (.arrive code 0 Frame.empty) (.returned value) final)
    (options : FoldOptions) {position : Nat} (within : position ≤ count) :
    ∃ reached, RunState.advance code receiver position (.arrive code 0 Frame.empty) =
        .running position reached ∧
      (code.knownAt options position).Describes reached receiver := by
  induction position with
  | zero =>
      have inside : 0 < code.length := straight.length ▸ Nat.succ_pos count
      have found := List.getElem?_eq_getElem inside
      refine ⟨Frame.empty, by rw [RunState.advance_zero, RunState.arrive_of_lt inside], ?_⟩
      rw [knownAt_zero found, straight.enter_eq within found]
      exact Known.describes_empty receiver
  | succ position ih =>
      obtain ⟨reached, running, describes⟩ := ih (Nat.le_of_succ_le within)
      obtain ⟨instruction, found, assigns⟩ := straight.assigns position within
      obtain ⟨effect, performs⟩ := exists_performs returned running found
      obtain ⟨name, stored, rfl⟩ := performs.exists_store assigns
      have selfFree := straight.selfFree instruction (List.mem_of_getElem? found)
      have inside : position + 1 < code.length := straight.length ▸ Nat.succ_lt_succ within
      have nextFound := List.getElem?_eq_getElem inside
      refine ⟨reached.bind name stored, ?_, ?_⟩
      · rw [RunState.advance_succ', running, RunState.step_running found,
          Instruction.effect_eq_ok_iff.mpr performs, RunState.perform,
          RunState.arrive_of_lt inside]
      · rw [knownAt_succ found nextFound, straight.enter_eq within nextFound]
        exact describes.leave performs selfFree

/-- Every narrowed instruction has ground operands only. -/
theorem ReturnsAfter.ground (straight : code.ReturnsAfter count operand)
    (returned : RunState.Ends code receiver (.arrive code 0 Frame.empty) (.returned value) final)
    (options : FoldOptions) :
    ∀ narrowed ∈ (code.fold options).instructions, ∀ read ∈ narrowed.operands, read.Ground := by
  intro narrowed member
  obtain ⟨position, found⟩ := List.mem_iff_getElem?.mp member
  rw [getElem?_fold] at found
  obtain ⟨instruction, here, rfl⟩ := Option.map_eq_some_iff.mp found
  have inside := (List.getElem?_eq_some_iff.mp here).1
  rw [straight.length] at inside
  have within := Nat.le_of_lt_succ inside
  obtain ⟨reached, running, describes⟩ := straight.reaches returned options within
  obtain ⟨effect, performs⟩ := exists_performs returned running here
  exact performs.narrow_ground (straight.selfFree instruction (List.mem_of_getElem? here)) describes

theorem ReturnsAfter.reads_eq_nil (straight : code.ReturnsAfter count operand)
    (returned : RunState.Ends code receiver (.arrive code 0 Frame.empty) (.returned value) final)
    (options : FoldOptions) : reads (code.fold options).instructions = [] := by
  refine List.flatMap_eq_nil_iff.mpr fun narrowed member => ?_
  refine List.flatMap_eq_nil_iff.mpr fun read operandMember => ?_
  exact (straight.ground returned options narrowed member read operandMember).vars_eq_nil

theorem ReturnsAfter.marked (straight : code.ReturnsAfter count operand)
    (returned : RunState.Ends code receiver (.arrive code 0 Frame.empty) (.returned value) final)
    (options : FoldOptions) {position : Nat} (within : position < count) :
    ∃ narrowed, (code.fold options).marked[position]? = some (narrowed, true) := by
  obtain ⟨reached, running, describes⟩ :=
    straight.reaches returned options (Nat.le_of_lt within)
  obtain ⟨instruction, found, assigns⟩ := straight.assigns position within
  obtain ⟨effect, performs⟩ := exists_performs returned running found
  obtain ⟨name, stored, rfl⟩ := performs.exists_store assigns
  obtain ⟨settled, fact, -⟩ := performs.exists_fact
    (straight.selfFree instruction (List.mem_of_getElem? found)) describes
  refine ⟨(instruction.narrow (code.knownAt options position)).instruction, ?_⟩
  rw [getElem?_fold_marked, found, straight.reads_eq_nil returned options]
  simp [isRemovable, fact]

/-- The return is narrowed to one that gives the value in every frame. -/
theorem ReturnsAfter.exists_last (straight : code.ReturnsAfter count operand)
    (returned : RunState.Ends code receiver (.arrive code 0 Frame.empty) (.returned value) final)
    (options : FoldOptions) : ∃ settled : Operand Value, settled.Ground ∧
      (code.fold options).marked[count]? = some (.ret settled, false) ∧
      ∀ frame receiver', settled.valueIn frame receiver' = .ok value := by
  obtain ⟨reached, running, describes⟩ := straight.reaches returned options (Nat.le_refl count)
  obtain ⟨effect, performs⟩ := exists_performs returned running straight.last
  obtain ⟨steps, ended⟩ := returned
  cases performs with
  | @ret _ held evaluated =>
      have returnsHeld : RunState.advance code receiver (count + 1) (.arrive code 0 Frame.empty) =
          .ended (.returned held) { reached with pending := none } := by
        rw [RunState.advance_succ', running, RunState.step_running straight.last,
          Instruction.effect_eq_ok_iff.mpr (.ret evaluated), RunState.perform]
      have same : value = held := Outcome.returned.inj (RunState.ended_unique ended returnsHeld).1
      have selfFree := straight.selfFree _ (List.mem_of_getElem? straight.last)
      have ground := describes.resolve (selfFree operand List.mem_cons_self) evaluated
      refine ⟨operand.resolve (code.knownAt options count), ground, ?_, ?_⟩
      · rw [getElem?_fold_marked, straight.last]
        rfl
      · intro frame receiver'
        rw [ground.valueIn_eq frame reached receiver' receiver, describes.sound.valueIn_resolve,
          evaluated, same]

/-- Assignments that use no receiver, run with nothing bound up to a return, fold away. All of
them are removable, and what is left is a return of an operand that names nothing and gives the
returned value in every frame and for every receiver. -/
theorem fold_closed_code (assignments : Code Value) (operand : Operand Value)
    (options : FoldOptions) (receiver value : Value) (final : Frame Value)
    (assigns : ∀ instruction ∈ assignments, instruction.isAssignment = true)
    (selfFree : ∀ instruction ∈ assignments ++ [.ret operand], instruction.SelfFree)
    (ran : RunsTo (assignments ++ [.ret operand]) none receiver Frame.empty (.returned value)
      final) :
    (∀ position < assignments.length,
      (fold (assignments ++ [.ret operand]) options).removable[position]? = some true) ∧
    ∃ settled : Operand Value,
      (fold (assignments ++ [.ret operand]) options).live = [.ret settled] ∧
      settled.vars = [] ∧ settled.labels = [] ∧
      ∀ (frame : Frame Value) (receiver' : Value),
        (fold (assignments ++ [.ret operand]) options).live.RunsTo none receiver' frame
          (.returned value) { frame with pending := none } := by
  have straight := returnsAfter_append assigns selfFree
  have dropped := fun position (within : position < assignments.length) =>
    straight.marked ran options within
  obtain ⟨settled, ground, kept, evaluated⟩ := straight.exists_last ran options
  have live := Folded.live_eq_singleton dropped kept (length_fold_marked.trans straight.length)
  refine ⟨?_, settled, live, ground.vars_eq_nil, ground.labels_eq_nil, ?_⟩
  · intro position within
    obtain ⟨narrowed, found⟩ := dropped position within
    exact (List.getElem?_zip_eq_some.mp found).2
  · intro frame receiver'
    rw [live]
    refine ⟨1, ?_⟩
    have performs := Instruction.effect_eq_ok_iff.mpr
      (.ret (evaluated frame receiver') : Instruction.Performs frame receiver' _ _)
    rw [RunState.arrive_of_lt Nat.one_pos, RunState.advance_succ, RunState.advance_zero,
      RunState.step_running rfl, performs, RunState.perform]

/-- Destructures a literal twice. The second literal is built from the first under its name. -/
def destructured : Code Value := [
  .copy ⟨"t"⟩ (.array [.constant (.scalar (.str "s")), .constant (.array [.nil])]),
  .getArray ⟨"a"⟩ (.var ⟨"t"⟩) 1 false,
  .copy ⟨"t"⟩ (.array [.var ⟨"t"⟩, .var ⟨"a"⟩]),
  .getArray ⟨"a"⟩ (.var ⟨"t"⟩) 1 true,
  .getArray ⟨"b"⟩ (.var ⟨"a"⟩) 7 false]

theorem destructured_folds_away :
    ∃ settled : Operand Value,
      (fold (destructured ++ [.ret (.array [.var ⟨"a"⟩, .var ⟨"b"⟩])]) {}).live = [.ret settled] ∧
      settled.vars = [] ∧
      ∀ (frame : Frame Value) (receiver : Value),
        (fold (destructured ++ [.ret (.array [.var ⟨"a"⟩, .var ⟨"b"⟩])]) {}).live.RunsTo none
          receiver frame (.returned (.array [.array [.array [.nil]], .nil]))
          { frame with pending := none } := by
  obtain ⟨-, settled, live, vars, -, returns⟩ := fold_closed_code destructured
    (.array [.var ⟨"a"⟩, .var ⟨"b"⟩]) {} Value.nil (.array [.array [.array [.nil]], .nil]) _
    (by decide) (by decide) ⟨6, rfl⟩
  exact ⟨settled, live, vars, returns⟩

end Code

end LinearIR
