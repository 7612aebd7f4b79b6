import LinearIR.Proofs.Folding.Flatness
import LinearIR.Proofs.Folding.Removal

/-!
# Folding folded code

A second fold finds nothing that the first has not found. What narrowed code reads is unknown in
the first fold, and the second knows the same about it: also in the live code, since a removable
instruction writes what is not read.
-/

set_option autoImplicit false

namespace LinearIR

namespace Known

variable {read : List Variable} {known known' : Known}

theorem enter_eq_self {instruction : Instruction Value} (notLabel : instruction.isLabel = false)
    (known : Known) (options : FoldOptions) : known.enter options instruction = known := by
  simp [enter, notLabel]

theorem enter_narrow (known before : Known) (options : FoldOptions)
    (instruction : Instruction Value) :
    known.enter options (instruction.narrow before).instruction =
      known.enter options instruction := by
  simp [enter, Instruction.narrow]

/-- What the first and the second fold know where they are at one instruction. Only the variables
in a list are read by the narrowed code. -/
structure Refolds (read : List Variable) (known known' : Known) : Prop where
  flat : known.Flat
  within : known.Within (· ∈ read) fun _ => True
  agrees : ∀ name ∈ read, known.get? name = known'.get? name

theorem refolds_empty (read : List Variable) : Refolds read ∅ ∅ where
  flat := flat_empty
  within := within_empty
  agrees _ _ := rfl

namespace Refolds

theorem enter (refolds : Refolds read known known') (options : FoldOptions)
    (instruction : Instruction Value) :
    Refolds read (known.enter options instruction) (known'.enter options instruction) := by
  unfold Known.enter
  split
  · exact refolds_empty read
  · exact refolds

section

variable (refolds : Refolds read known known') {instruction : Instruction Value}

include refolds

/-- A narrowed instruction reads nothing that the second fold could replace. -/
theorem narrow_again
    (reads : ∀ name ∈ (instruction.narrow known).instruction.reads, name ∈ read) :
    (instruction.narrow known).instruction.narrow known' = instruction.narrow known := by
  refine Instruction.narrow_eq_self fun name occurs => ?_
  rw [← refolds.agrees name (reads name occurs)]
  exact Instruction.unknown_of_mem_reads_narrow refolds.flat name occurs

theorem within_leave
    (reads : ∀ name ∈ (instruction.narrow known).instruction.reads, name ∈ read) :
    (known.leave (instruction.narrow known)).Within (· ∈ read) fun _ => True := by
  refine refolds.within.leave fun operand settled => ⟨fun name occurs => ?_, fun _ _ => trivial⟩
  exact reads name (Instruction.mem_reads_of_settled settled name occurs)

theorem leave (reads : ∀ name ∈ (instruction.narrow known).instruction.reads, name ∈ read) :
    Refolds read (known.leave (instruction.narrow known))
      (known'.leave (instruction.narrow known)) where
  flat := refolds.flat.leave_narrow instruction
  within := refolds.within_leave reads
  agrees name member := by
    refine Option.ext fun operand => ?_
    rw [get?_leave_eq_some_iff, get?_leave_eq_some_iff, refolds.agrees name member]

/-- The second fold need not see an instruction that writes a variable which is not read. -/
theorem leave_unread
    (reads : ∀ name ∈ (instruction.narrow known).instruction.reads, name ∈ read)
    {destination : Variable} {operand : Operand Value}
    (fact : (instruction.narrow known).fact? = some (destination, operand))
    (unread : destination ∉ read) :
    Refolds read (known.leave (instruction.narrow known)) known' where
  flat := refolds.flat.leave_narrow instruction
  within := refolds.within_leave reads
  agrees := by
    obtain ⟨writes, -, -⟩ := Narrowed.fact?_eq_some_iff.mp fact
    intro name member
    have differs : name ≠ destination := fun same => unread (same ▸ member)
    rw [← refolds.agrees name member]
    refine Option.ext fun found => ?_
    rw [get?_leave_eq_some_iff]
    constructor
    · rintro ⟨-, told | ⟨before, -⟩⟩
      · rw [fact] at told
        cases told
        exact absurd rfl differs
      · exact before
    · intro before
      refine ⟨Instruction.transfersControl_of_result? writes, .inr ⟨before, ?_⟩⟩
      intro written writes'
      rw [writes] at writes'
      cases writes'
      refine ⟨differs, Bool.eq_false_iff.mpr fun mentioned => unread ?_⟩
      exact (refolds.within name found before).vars destination
        (Operand.mentions_iff_mem_vars.mp mentioned)

end

end Refolds

end Known

namespace Code

/-- Narrowed instructions are narrowed to themselves again, also without some that tell facts about
variables that are not read. -/
theorem narrowFrom_filter {read : List Variable} (keep : Narrowed → Bool)
    (dropped : ∀ narrowed, keep narrowed = false → ∃ destination operand,
      narrowed.fact? = some (destination, operand) ∧ destination ∉ read)
    (options : FoldOptions) {code : Code Value} {known known' : Known}
    (refolds : Known.Refolds read known known')
    (reads : ∀ narrowed ∈ code.narrowFrom known options,
      ∀ name ∈ narrowed.instruction.reads, name ∈ read) :
    narrowFrom known' options
        (((code.narrowFrom known options).filter keep).map Narrowed.instruction) =
      (code.narrowFrom known options).filter keep := by
  induction code generalizing known known' with
  | nil => rfl
  | cons first rest ih =>
      obtain ⟨firstReads, restReads⟩ := List.forall_mem_cons.mp reads
      have entered := refolds.enter options first
      rw [narrowFrom, List.filter_cons]
      cases kept : keep (first.narrow (known.enter options first)) with
      | false =>
          rw [if_neg Bool.false_ne_true]
          obtain ⟨destination, operand, fact, unread⟩ := dropped _ kept
          have writes := (Narrowed.fact?_eq_some_iff.mp fact).1
          rw [Instruction.narrow, Instruction.result?_mapOperands] at writes
          -- What is dropped is no label, so the second fold forgets nothing in front of it.
          rw [Known.enter_eq_self (Instruction.isLabel_of_result? writes) known'] at entered
          exact ih (entered.leave_unread firstReads fact unread) restReads
      | true =>
          have again := entered.narrow_again firstReads
          have left : Known.Refolds read (known.after options first)
              (known'.after options (first.narrow (known.enter options first)).instruction) := by
            rw [Known.after, Known.after, Known.enter_narrow, again]
            exact entered.leave firstReads
          rw [if_pos rfl, List.map_cons, narrowFrom, Known.enter_narrow, again, ih left restReads]

variable (code : Code Value) (options : FoldOptions)

theorem mem_reads_fold :
    ∀ narrowed ∈ code.narrowFrom ∅ options, ∀ name ∈ narrowed.instruction.reads,
      name ∈ reads (code.fold options).instructions := by
  intro narrowed member name read
  exact List.mem_flatMap.mpr ⟨narrowed.instruction, List.mem_map_of_mem member, read⟩

theorem narrowFrom_fold :
    (code.fold options).instructions.narrowFrom ∅ options = code.narrowFrom ∅ options := by
  have again := narrowFrom_filter (fun _ => true) nofun options (Known.refolds_empty _)
    (mem_reads_fold code options)
  rwa [List.filter_true] at again

/-- The narrowed instructions that are not removable. -/
def survivors : List Narrowed :=
  (code.narrowFrom ∅ options).filter fun narrowed =>
    !isRemovable (reads (code.fold options).instructions) narrowed

theorem fold_live : (code.fold options).live =
    (code.survivors options).map Narrowed.instruction := by
  rw [Folded.live_eq_unmarked, fold_marked, survivors]
  induction code.narrowFrom ∅ options with
  | nil => rfl
  | cons narrowed rest ih =>
      rw [List.map_cons, Folded.unmarked_cons, List.filter_cons, ih]
      cases isRemovable (reads (code.fold options).instructions) narrowed <;> rfl

/-- The live code is narrowed to itself, with the results that were settled in the whole code. -/
theorem narrowFrom_live :
    (code.fold options).live.narrowFrom ∅ options = code.survivors options := by
  rw [fold_live]
  refine narrowFrom_filter _ (fun narrowed removed => ?_) options (Known.refolds_empty _)
    (mem_reads_fold code options)
  exact isRemovable_iff.mp (by simpa using removed)

/-- Folding is idempotent: narrowed instructions are not narrowed any further, and the same ones are
removable. -/
theorem fold_idempotent (code : Code Value) (options : FoldOptions) :
    (code.fold options).instructions.fold options = code.fold options := by
  rw [fold, narrowFrom_fold]
  rfl

/-- The live code is narrowed as far as it can be. Folding it again leaves its instructions as they
are, and marks an instruction as removable only if nothing but what was dropped had read its
destination. -/
theorem live_fully_narrowed (code : Code Value) (options : FoldOptions) :
    ((code.fold options).live.fold options).instructions = (code.fold options).live ∧
    ∀ instruction, (instruction, true) ∈ ((code.fold options).live.fold options).marked →
      ∃ destination, instruction.result? = some destination ∧
        destination ∈ reads (code.fold options).instructions ∧
        destination ∉ reads (code.fold options).live := by
  have kept : ((code.fold options).live.fold options).instructions = (code.fold options).live := by
    rw [fold, narrowFrom_live, fold_live]
  refine ⟨kept, fun instruction marked => ?_⟩
  rw [fold_marked, narrowFrom_live, kept] at marked
  obtain ⟨narrowed, survives, same⟩ := List.mem_map.mp marked
  obtain ⟨rfl, removable⟩ := Prod.mk.inj same
  obtain ⟨destination, operand, fact, unread⟩ := isRemovable_iff.mp removable
  refine ⟨destination, (Narrowed.fact?_eq_some_iff.mp fact).1, ?_, unread⟩
  -- It was not removable before, so the destination was read then.
  by_contra unreadBefore
  have removed := isRemovable_iff.mpr ⟨destination, operand, fact, unreadBefore⟩
  have stayed := (List.mem_filter.mp survives).2
  rw [removed] at stayed
  cases stayed

/-- What only a dropped instruction reads is dropped by the next fold. -/
example : ((fold [.copy ⟨"x"⟩ .self, .label ⟨"here"⟩, .copy ⟨"y"⟩ (.var ⟨"x"⟩)] {}).live.fold
    {}).removable = [true, false] := by
  decide

end Code

end LinearIR
