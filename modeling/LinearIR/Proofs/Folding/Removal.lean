import LinearIR.Proofs.Folding.Lockstep

/-!
# Dropping removable instructions

No narrowed instruction reads the destination of a removable one. So the live code follows the
narrowed code, without a step where that one executes a removable instruction, on a frame that
may differ in such destinations only.
-/

set_option autoImplicit false

namespace LinearIR

namespace Folded

def marked (folded : Folded) : List (Instruction Value × Bool) :=
  folded.instructions.zip folded.removable

def unmarked (instructions : List (Instruction Value × Bool)) : Code Value :=
  instructions.filterMap fun (instruction, removable) =>
    if removable then none else some instruction

theorem live_eq_unmarked (folded : Folded) : folded.live = unmarked folded.marked := rfl

/-- Where the live code stands when the narrowed code is at a position. -/
def livePosition (folded : Folded) (position : Nat) : Nat :=
  (unmarked (folded.marked.take position)).length

/-- The variables that some removable instruction writes. -/
def Dropped (folded : Folded) (name : Variable) : Prop :=
  ∃ instruction, (instruction, true) ∈ folded.marked ∧ instruction.result? = some name

theorem unmarked_append (first second : List (Instruction Value × Bool)) :
    unmarked (first ++ second) = unmarked first ++ unmarked second :=
  List.filterMap_append

theorem unmarked_cons (instruction : Instruction Value) (removable : Bool)
    (rest : List (Instruction Value × Bool)) :
    unmarked ((instruction, removable) :: rest) =
      if removable then unmarked rest else instruction :: unmarked rest := by
  cases removable <;> rfl

variable {folded : Folded}

theorem livePosition_succ {position : Nat} {instruction : Instruction Value} {removable : Bool}
    (found : folded.marked[position]? = some (instruction, removable)) :
    folded.livePosition (position + 1) =
      if removable then folded.livePosition position else folded.livePosition position + 1 := by
  rw [livePosition, List.take_add_one, found, Option.toList_some, unmarked_append,
    List.length_append, unmarked_cons]
  cases removable <;> rfl

theorem livePosition_of_ge {position : Nat} (outside : folded.marked.length ≤ position) :
    folded.livePosition position = folded.live.length := by
  rw [livePosition, List.take_of_length_le outside, live_eq_unmarked]

theorem getElem?_live {position : Nat} {instruction : Instruction Value}
    (found : folded.marked[position]? = some (instruction, false)) :
    folded.live[folded.livePosition position]? = some instruction := by
  obtain ⟨inside, here⟩ := List.getElem?_eq_some_iff.mp found
  have split : unmarked folded.marked = unmarked (folded.marked.take position) ++
      instruction :: unmarked (folded.marked.drop (position + 1)) := by
    conv => lhs; rw [← List.take_append_drop position folded.marked]
    rw [unmarked_append, List.drop_eq_getElem_cons inside, here, unmarked_cons,
      if_neg Bool.false_ne_true]
  rw [live_eq_unmarked, livePosition, split, List.getElem?_append_right (Nat.le_refl _),
    Nat.sub_self, List.getElem?_cons_zero]

theorem labelPosition?_unmarked (target : Label) (instructions : List (Instruction Value × Bool))
    (kept : ∀ instruction, (instruction, true) ∈ instructions →
      instruction.defines target = false) :
    Code.labelPosition? target (unmarked instructions) =
      (Code.labelPosition? target (instructions.map Prod.fst)).map fun position =>
        (unmarked (instructions.take position)).length := by
  induction instructions with
  | nil => rfl
  | cons entry rest ih =>
      obtain ⟨instruction, removable⟩ := entry
      have laterKept := ih fun later member => kept later (List.mem_cons_of_mem _ member)
      rw [unmarked_cons, List.map_cons, Code.labelPosition?_cons]
      cases removable with
      | true =>
          rw [if_pos rfl, laterKept]
          cases Code.labelPosition? target (rest.map Prod.fst) with
          | none => simp [kept instruction List.mem_cons_self]
          | some position => simp [unmarked_cons]
      | false =>
          rw [if_neg Bool.false_ne_true, Code.labelPosition?_cons, laterKept]
          cases Code.labelPosition? target (rest.map Prod.fst) with
          | none => cases instruction.defines target <;> rfl
          | some position => simp [unmarked_cons]

end Folded

namespace Code

variable {code : Code Value} {options : FoldOptions}

theorem length_fold_removable :
    (code.fold options).removable.length = (code.fold options).instructions.length := by
  simp [fold]

theorem fold_marked_fst : (code.fold options).marked.map Prod.fst =
    (code.fold options).instructions := by
  rw [Folded.marked, ← List.unzip_fst, List.unzip_zip length_fold_removable.symm]

theorem length_fold_marked : (code.fold options).marked.length = code.length := by
  rw [← List.length_map Prod.fst, fold_marked_fst, length_fold_instructions]

theorem isRemovable_iff {read : List Variable} {narrowed : Narrowed} :
    isRemovable read narrowed = true ↔
      ∃ destination operand, narrowed.fact? = some (destination, operand) ∧
        destination ∉ read := by
  unfold isRemovable
  cases narrowed.fact? with
  | none => simp
  | some fact => simp [Prod.ext_iff]

theorem fold_marked : (code.fold options).marked = (code.narrowFrom ∅ options).map fun narrowed =>
    (narrowed.instruction, isRemovable (reads (code.fold options).instructions) narrowed) := by
  simp only [Folded.marked, fold, List.zip_map']

theorem fold_removable {instruction : Instruction Value}
    (marked : (instruction, true) ∈ (code.fold options).marked) :
    ∃ destination, instruction.result? = some destination ∧
      destination ∉ reads (code.fold options).instructions := by
  rw [fold_marked] at marked
  obtain ⟨narrowed, -, same⟩ := List.mem_map.mp marked
  obtain ⟨rfl, removable⟩ := Prod.mk.inj same
  obtain ⟨destination, operand, fact, unread⟩ := isRemovable_iff.mp removable
  exact ⟨destination, (Narrowed.fact?_eq_some_iff.mp fact).1, unread⟩

theorem not_dropped_of_read {instruction : Instruction Value}
    (member : instruction ∈ (code.fold options).instructions) {name : Variable}
    (read : name ∈ instruction.reads) : ¬ (code.fold options).Dropped name := by
  intro dropped
  obtain ⟨removed, marked, writes⟩ := dropped
  obtain ⟨destination, writes', unread⟩ := fold_removable marked
  rw [writes] at writes'
  cases writes'
  exact unread (List.mem_flatMap.mpr ⟨instruction, member, read⟩)

end Code

/-- Two frames with the same pending value, which differ in hidden variables only. -/
structure Frame.AgreesOff (hidden : Variable → Prop) (first second : Frame Value) : Prop where
  get? : ∀ name, ¬ hidden name → first.get? name = second.get? name
  pending : first.pending = second.pending

namespace Frame.AgreesOff

variable {hidden : Variable → Prop} {first second : Frame Value}

theorem refl (frame : Frame Value) : AgreesOff hidden frame frame :=
  ⟨fun _ _ => rfl, rfl⟩

theorem bind (agrees : AgreesOff hidden first second) (stored : Variable) (value : Value) :
    AgreesOff hidden (first.bind stored value) (second.bind stored value) where
  get? name shown := by rw [get?_bind, get?_bind, agrees.get? name shown]
  pending := agrees.pending

theorem bind_left (agrees : AgreesOff hidden first second) {stored : Variable}
    (isHidden : hidden stored) (value : Value) :
    AgreesOff hidden (first.bind stored value) second where
  get? name shown := by
    have differs : name ≠ stored := by
      intro same
      exact shown (same ▸ isHidden)
    rw [get?_bind_of_ne first differs, agrees.get? name shown]
  pending := agrees.pending

end Frame.AgreesOff

/-- The live code stands where the narrowed code does, or has ended as it has. -/
inductive Folded.Follows (folded : Folded) :
    RunState (Frame Value) Value → RunState (Frame Value) Value → Prop where
  | running {position frame frame'} :
      position < folded.marked.length →
      Frame.AgreesOff folded.Dropped frame frame' →
      Follows folded (.running position frame)
        (.arrive folded.live (folded.livePosition position) frame')
  | ended {outcome frame frame'} :
      Frame.AgreesOff folded.Dropped frame frame' →
      Follows folded (.ended outcome frame) (.ended outcome frame')

namespace Code

variable {code : Code Value} {options : FoldOptions} {receiver : Value}

theorem follows_arrive {frame frame' : Frame Value} (position : Nat)
    (agrees : Frame.AgreesOff (code.fold options).Dropped frame frame') :
    (code.fold options).Follows (.arrive (code.fold options).instructions position frame)
      (.arrive (code.fold options).live ((code.fold options).livePosition position) frame') := by
  by_cases inside : position < code.length
  · rw [RunState.arrive_of_lt (length_fold_instructions.symm ▸ inside)]
    exact .running (length_fold_marked.symm ▸ inside) agrees
  · have outside := Nat.not_lt.mp inside
    rw [RunState.arrive_of_ge (length_fold_instructions.symm ▸ outside),
      Folded.livePosition_of_ge (length_fold_marked.symm ▸ outside),
      RunState.arrive_of_ge (Nat.le_refl _)]
    exact .ended agrees

theorem labelPosition?_live (target : Label) :
    (code.fold options).live.labelPosition? target =
      ((code.fold options).instructions.labelPosition? target).map
        (code.fold options).livePosition := by
  have kept : ∀ instruction, (instruction, true) ∈ (code.fold options).marked →
      instruction.defines target = false := by
    intro instruction marked
    obtain ⟨destination, writes, _⟩ := fold_removable marked
    cases instruction <;> first | rfl | cases writes
  have positions := Folded.labelPosition?_unmarked target (code.fold options).marked kept
  rw [fold_marked_fst] at positions
  exact positions

/-- A removable instruction that does not fault is passed over by the live code. -/
theorem follows_removable {position : Nat} {frame frame' : Frame Value}
    {instruction : Instruction Value}
    (found : (code.fold options).marked[position]? = some (instruction, true))
    (agrees : Frame.AgreesOff (code.fold options).Dropped frame frame') {effect : Effect}
    (performed : instruction.effect frame receiver = .ok effect) :
    (code.fold options).Follows
      (.perform (code.fold options).instructions position frame (.ok effect))
      (.arrive (code.fold options).live ((code.fold options).livePosition position) frame') := by
  have marked := List.mem_of_getElem? found
  obtain ⟨destination, writes, _⟩ := fold_removable marked
  have next : (code.fold options).livePosition (position + 1) =
      (code.fold options).livePosition position := Folded.livePosition_succ found
  have stores : ∃ value, effect = .store destination value := by
    cases Instruction.effect_eq_ok_iff.mp performed with
    | copy | getArray => cases writes; exact ⟨_, rfl⟩
    | label | jump | equal | differ | ret => cases writes
  obtain ⟨value, rfl⟩ := stores
  rw [← next]
  exact follows_arrive (position + 1) (agrees.bind_left ⟨instruction, marked, writes⟩ value)

theorem follows_kept {position : Nat} {frame frame' : Frame Value}
    {instruction : Instruction Value}
    (found : (code.fold options).marked[position]? = some (instruction, false))
    (agrees : Frame.AgreesOff (code.fold options).Dropped frame frame') :
    (code.fold options).Follows
      (.perform (code.fold options).instructions position frame
        (instruction.effect frame receiver))
      (.perform (code.fold options).live ((code.fold options).livePosition position) frame'
        (instruction.effect frame' receiver)) := by
  have member : instruction ∈ (code.fold options).instructions := by
    rw [← fold_marked_fst]
    exact List.mem_map_of_mem (List.mem_of_getElem? found)
  have sameEffect : instruction.effect frame receiver = instruction.effect frame' receiver :=
    Instruction.effect_congr fun name read => agrees.get? name (not_dropped_of_read member read)
  have next : (code.fold options).livePosition (position + 1) =
      (code.fold options).livePosition position + 1 := Folded.livePosition_succ found
  rw [← sameEffect]
  cases instruction.effect frame receiver with
  | error fault => exact .ended agrees
  | ok effect =>
      cases effect with
      | store name value =>
          simp only [RunState.perform, ← next]
          exact follows_arrive _ (agrees.bind name value)
      | skip =>
          simp only [RunState.perform, ← next]
          exact follows_arrive _ agrees
      | goto target =>
          simp only [RunState.perform, labelPosition?_live]
          cases (code.fold options).instructions.labelPosition? target with
          | none => exact .ended agrees
          | some label => exact follows_arrive label agrees
      | ret value => exact .ended ⟨agrees.get?, rfl⟩

theorem follows_step {state state' : RunState (Frame Value) Value}
    (follows : (code.fold options).Follows state state') :
    (∃ position frame fault after, state = .running position frame ∧
      RunState.step (code.fold options).instructions receiver state =
        .ended (.faulted fault) after ∧
      (code.fold options).removable[position]? = some true) ∨
    ∃ taken ≤ 1, (code.fold options).Follows
      (RunState.step (code.fold options).instructions receiver state)
      (RunState.advance (code.fold options).live receiver taken state') := by
  cases follows with
  | @running position frame frame' inside agrees =>
      obtain ⟨⟨instruction, removable⟩, found⟩ :
          ∃ entry, (code.fold options).marked[position]? = some entry :=
        ⟨_, List.getElem?_eq_getElem inside⟩
      obtain ⟨instructionFound, removableFound⟩ := List.getElem?_zip_eq_some.mp found
      rw [RunState.step_running instructionFound]
      cases removable with
      | true =>
          cases performed : instruction.effect frame receiver with
          | error fault => exact .inl ⟨position, frame, fault, frame, rfl, rfl, removableFound⟩
          | ok effect =>
              refine .inr ⟨0, Nat.zero_le 1, ?_⟩
              rw [RunState.advance_zero]
              exact follows_removable found agrees performed
      | false =>
          have liveFound := Folded.getElem?_live found
          have liveInside := (List.getElem?_eq_some_iff.mp liveFound).1
          refine .inr ⟨1, Nat.le_refl 1, ?_⟩
          rw [RunState.arrive_of_lt liveInside, RunState.advance_succ, RunState.advance_zero,
            RunState.step_running liveFound]
          exact follows_kept found agrees
  | ended agrees => exact .inr ⟨0, Nat.zero_le 1, by simpa using .ended agrees⟩

/-- The live code follows a whole run, unless the run faults at a removable instruction. -/
theorem follows_advance (receiver : Value) (frame : Frame Value) (steps : Nat) :
    (∃ position, RunState.FaultsAt (code.fold options).instructions receiver
        (.arrive (code.fold options).instructions 0 frame) position ∧
      (code.fold options).removable[position]? = some true) ∨
    ∃ taken ≤ steps, (code.fold options).Follows
      (RunState.advance (code.fold options).instructions receiver steps
        (.arrive (code.fold options).instructions 0 frame))
      (RunState.advance (code.fold options).live receiver taken
        (.arrive (code.fold options).live 0 frame)) := by
  induction steps with
  | zero =>
      refine .inr ⟨0, Nat.le_refl 0, ?_⟩
      rw [RunState.advance_zero, RunState.advance_zero]
      exact follows_arrive 0 (.refl frame)
  | succ steps ih =>
      rcases ih with faults | ⟨earlier, earlierBound, follows⟩
      · exact .inl faults
      · rw [RunState.advance_succ']
        rcases follows_step follows with faults | ⟨taken, takenBound, next⟩
        · obtain ⟨position, reached, fault, after, here, faulted, removable⟩ := faults
          exact .inl ⟨position, ⟨steps, reached, fault, after, here, here ▸ faulted⟩, removable⟩
        · refine .inr ⟨earlier + taken, Nat.add_le_add earlierBound takenBound, ?_⟩
          rw [RunState.advance_add]
          exact next

theorem faultsAt_of_narrowed (safe : options.SafeFor code) {frame : Frame Value} {position : Nat}
    (faults : RunState.FaultsAt (code.fold options).instructions receiver
      (.arrive (code.fold options).instructions 0 frame) position) :
    RunState.FaultsAt code receiver (.arrive code 0 frame) position := by
  obtain ⟨steps, reached, fault, after, running, faulted⟩ := faults
  have lockstep := lockstep_advance safe receiver frame steps
  rw [running] at lockstep
  generalize originalReached : RunState.advance code receiver steps (.arrive code 0 frame) = state
    at lockstep
  have next := lockstep.step safe ⟨steps, originalReached⟩
  cases lockstep with
  | running inside sound =>
      rw [faulted] at next
      obtain ⟨outcome, narrows, ended⟩ := next.ended_left rfl
      cases narrows with
      | same => exact ⟨steps, reached, fault, after, originalReached, ended⟩
      | notAnArray => exact ⟨steps, reached, _, after, originalReached, ended⟩

/-- Running the live instructions of a code is running the code: if the run ends by itself, and
not by a fault of a removable instruction, then the live code ends within the same limit, with the
same outcome, but that a failed extraction names its source as narrowed there, on a frame that
differs in destinations of removable instructions only. -/
theorem live_runs_alike (code : Code Value) (options : FoldOptions) (safe : options.SafeFor code)
    (limit? : Option Nat) (receiver : Value) (frame : Frame Value) (outcome : Outcome Value)
    (final : Frame Value) (ran : code.RunsTo limit? receiver frame outcome final)
    (notCut : ∀ steps limit, outcome ≠ .stepLimit steps limit)
    (faultStays : ∀ fault, outcome = .faulted fault → ∃ position,
      RunState.FaultsAt code receiver (.arrive code 0 frame) position ∧
        (code.fold options).removable[position]? = some false) :
    ∃ outcome' final', (code.fold options).live.RunsTo limit? receiver frame outcome' final' ∧
      outcome.Narrows code options receiver frame outcome' ∧
      Frame.AgreesOff (code.fold options).Dropped final final' := by
  obtain ⟨steps, allowed, ended⟩ := (runsTo_iff_advance notCut).mp ran
  have lockstep := lockstep_advance safe receiver frame steps
  obtain ⟨outcome', narrows, narrowedEnded⟩ := lockstep.ended_right ended
  rcases follows_advance receiver frame steps with
    ⟨position, narrowedFaults, removable⟩ | ⟨taken, bound, follows⟩
  · have faults := faultsAt_of_narrowed safe narrowedFaults
    obtain ⟨_, fault, _, faulted⟩ := faults.faulted
    obtain ⟨keptPosition, keptFaults, kept⟩ :=
      faultStays fault (RunState.ended_unique ended faulted).1
    rw [keptFaults.unique faults, removable] at kept
    cases kept
  · rw [narrowedEnded] at follows
    generalize liveEnded : RunState.advance (code.fold options).live receiver taken
      (.arrive (code.fold options).live 0 frame) = state at follows
    cases follows with
    | ended agrees =>
        refine ⟨outcome', _, ?_, narrows, agrees⟩
        have notCut' : ∀ steps limit, outcome' ≠ .stepLimit steps limit := by
          cases narrows with
          | same => exact notCut
          | notAnArray => nofun
        exact (runsTo_iff_advance notCut').mpr
          ⟨taken, fun limit given => Nat.le_trans bound (allowed limit given), liveEnded⟩

/-- A loop that a failed extraction follows. -/
def failingLoop : Code Value := [
  .copy ⟨"t"⟩ (.constant (.scalar (.fixnum 1))),
  .copy ⟨"i"⟩ (.var ⟨"t"⟩),
  .label ⟨"next"⟩,
  .copy ⟨"u"⟩ (.array [.var ⟨"i"⟩, .self]),
  .beq (.var ⟨"i"⟩) (.constant .nil) ⟨"done"⟩,
  .copy ⟨"i"⟩ (.constant .nil),
  .jump ⟨"next"⟩,
  .label ⟨"done"⟩,
  .getArray ⟨"z"⟩ (.var ⟨"i"⟩) 0 false]

/-- The copies in front of the loop and in it are dropped, and the extraction fails alike. -/
theorem failingLoop_runs_alike : (failingLoop.fold {}).live.length = 7 ∧
    ∃ final outcome' final',
      failingLoop.RunsTo none Value.nil (Frame.ofList [(⟨"u"⟩, Value.nil)])
        (.faulted (.notAnArray (.var ⟨"i"⟩) .nil)) final ∧
      (failingLoop.fold {}).live.RunsTo none Value.nil (Frame.ofList [(⟨"u"⟩, Value.nil)])
        outcome' final' ∧
      Outcome.Narrows failingLoop {} Value.nil (Frame.ofList [(⟨"u"⟩, Value.nil)])
        (.faulted (.notAnArray (.var ⟨"i"⟩) .nil)) outcome' ∧
      Frame.AgreesOff (failingLoop.fold {}).Dropped final final' := by
  have ran : failingLoop.RunsTo none Value.nil (Frame.ofList [(⟨"u"⟩, Value.nil)])
      (.faulted (.notAnArray (.var ⟨"i"⟩) .nil)) _ := ⟨12, rfl⟩
  have faults : RunState.FaultsAt failingLoop Value.nil
      (.arrive failingLoop 0 (Frame.ofList [(⟨"u"⟩, Value.nil)])) 8 := ⟨11, _, _, _, rfl, rfl⟩
  obtain ⟨outcome', final', ran', narrows, agrees⟩ := live_runs_alike failingLoop {} (.inl rfl)
    none Value.nil _ _ _ ran nofun fun _ _ => ⟨8, faults, by decide⟩
  exact ⟨by decide, _, outcome', final', ran, ran', narrows, agrees⟩

end Code

end LinearIR
