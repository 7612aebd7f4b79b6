import LinearIR.Proofs.Folding.Names

/-!
# Knowledge is flat

An operand that a variable is known to be reads no known variable. So a variable is looked up for
good: resolving again changes nothing, and a narrowed instruction stays as it is.
-/

set_option autoImplicit false

namespace LinearIR

/-- Nothing is known about the variables that known operands read. -/
def Known.Flat (known : Known) : Prop :=
  ∀ name operand, known.get? name = some operand → ∀ read ∈ operand.vars, known.get? read = none

namespace Operand

variable {known : Known} {operand : Operand Value}

theorem resolve_eq_self (unknown : ∀ name ∈ operand.vars, known.get? name = none) :
    operand.resolve known = operand := by
  induction operand using Operand.induction with
  | var name => rw [resolve, unknown name (by simp [vars]), Option.getD_none]
  | constant value => rfl
  | array elements ih =>
      have kept : ∀ element ∈ elements, element.resolve known = element := by
        intro element member
        refine ih element member fun name read => unknown name ?_
        simpa [vars] using ⟨element, member, read⟩
      rw [resolve, resolveAll_eq_map, List.map_congr_left kept, List.map_id']
  | label name => rfl
  | self => rfl

/-- Nothing is known about what a resolved operand reads. -/
theorem unknown_of_mem_vars_resolve (flat : known.Flat) :
    ∀ name ∈ (operand.resolve known).vars, known.get? name = none := by
  induction operand using Operand.induction with
  | var name =>
      rw [resolve]
      cases bound : known.get? name with
      | none => simpa [vars] using bound
      | some operand => exact flat name operand bound
  | array elements ih =>
      intro name read
      rw [resolve, resolveAll_eq_map, vars, listVars_eq_flatMap, List.mem_flatMap] at read
      obtain ⟨_, member, read⟩ := read
      obtain ⟨element, elementMember, rfl⟩ := List.mem_map.mp member
      exact ih element elementMember name read
  | constant | label | self => simp [resolve, vars]

theorem mentions_eq_false_of_unknown (unknown : ∀ read ∈ operand.vars, known.get? read = none)
    {key : Variable} (bound : known.contains key = true) : operand.mentions key = false := by
  refine Bool.eq_false_iff.mpr fun mentioned => ?_
  rw [Bindings.contains, unknown key (mentions_iff_mem_vars.mp mentioned)] at bound
  cases bound

end Operand

namespace Instruction

variable {known : Known} {instruction : Instruction Value}

theorem mapOperands_eq_self {replace : Operand Value → Operand Value}
    (kept : ∀ operand ∈ instruction.operands, replace operand = operand) :
    instruction.mapOperands replace = instruction := by
  cases instruction <;> simp_all [mapOperands, operands]

theorem narrow_eq_self (unknown : ∀ name ∈ instruction.reads, known.get? name = none) :
    instruction.narrow known = { instruction, result? := instruction.settled? } := by
  have same : instruction.mapOperands (Operand.resolve known) = instruction := by
    refine mapOperands_eq_self fun operand member => Operand.resolve_eq_self fun name read => ?_
    exact unknown name (List.mem_flatMap.mpr ⟨operand, member, read⟩)
  rw [narrow, same]

/-- An operand that settles an instruction reads what the instruction reads. -/
theorem mem_reads_of_settled {operand : Operand Value}
    (settled : instruction.settled? = some operand) :
    ∀ name ∈ operand.vars, name ∈ instruction.reads := by
  have operandsWithin : ∀ read ∈ instruction.operands,
      read.Within (· ∈ instruction.reads) fun _ => True := by
    intro read member
    exact ⟨fun name occurs => List.mem_flatMap.mpr ⟨read, member, occurs⟩, fun _ _ => trivial⟩
  exact (within_settled operandsWithin settled).vars

theorem unknown_of_mem_reads_narrow (flat : known.Flat) :
    ∀ name ∈ (instruction.narrow known).instruction.reads, known.get? name = none := by
  intro name read
  rw [reads, narrow, operands_mapOperands, List.mem_flatMap] at read
  obtain ⟨_, member, read⟩ := read
  obtain ⟨operand, -, rfl⟩ := List.mem_map.mp member
  exact Operand.unknown_of_mem_vars_resolve flat name read

/-- Nothing is known about what a settled operand reads. -/
theorem unknown_of_settled_narrow (flat : known.Flat) :
    ∀ operand ∈ (instruction.narrow known).result?, ∀ read ∈ operand.vars,
      known.get? read = none := by
  intro operand settled read occurs
  exact unknown_of_mem_reads_narrow flat read (mem_reads_of_settled settled read occurs)

theorem narrow_narrow (flat : known.Flat) :
    (instruction.narrow known).instruction.narrow known = instruction.narrow known :=
  narrow_eq_self (unknown_of_mem_reads_narrow flat)

end Instruction

namespace Known

variable {known : Known}

theorem flat_empty : Flat ∅ := by
  intro name operand bound
  cases bound

theorem Flat.enter (flat : known.Flat) (options : FoldOptions) (instruction : Instruction Value) :
    (known.enter options instruction).Flat := by
  unfold Known.enter
  split
  · exact flat_empty
  · exact flat

theorem get?_forget_eq_none {stored name : Variable} (unknown : known.get? name = none) :
    (known.forget stored).get? name = none := by
  refine Option.eq_none_iff_forall_not_mem.mpr fun operand kept => ?_
  rw [(get?_forget_eq_some_iff.mp kept).1] at unknown
  cases unknown

theorem Flat.forget (flat : known.Flat) (stored : Variable) : (known.forget stored).Flat := by
  intro name operand kept read occurs
  exact get?_forget_eq_none (flat name operand (get?_forget_eq_some_iff.mp kept).1 read occurs)

theorem Flat.insert (flat : known.Flat) {destination : Variable} {operand : Operand Value}
    (unknown : ∀ read ∈ operand.vars, known.get? read = none)
    (unmentioned : operand.mentions destination = false)
    (others : ∀ name other, known.get? name = some other → other.mentions destination = false) :
    Flat (Bindings.insert known destination operand) := by
  have differs {reader : Operand Value} (unread : reader.mentions destination = false) :
      ∀ read ∈ reader.vars, read ≠ destination := by
    rintro read occurs rfl
    rw [Operand.mentions_iff_mem_vars.mpr occurs] at unread
    cases unread
  refine Bindings.forall_get?_insert (fun name other bound read occurs => ?_)
    fun read occurs => ?_
  · rw [Bindings.get?_insert, if_neg (differs (others name other bound) read occurs)]
    exact flat name other bound read occurs
  · rw [Bindings.get?_insert, if_neg (differs unmentioned read occurs)]
    exact unknown read occurs

/-- What is still known once the instruction has written its destination. -/
def overwrite (known : Known) (narrowed : Narrowed) : Known :=
  match narrowed.instruction.result? with
  | some destination => known.forget destination
  | none => known

def learn (known : Known) (narrowed : Narrowed) : Known :=
  match narrowed.fact? with
  | some (destination, operand) => known.insert destination operand
  | none => known

/-- Control that goes on takes along what is still known and what the instruction told. -/
theorem leave_eq (known : Known) (narrowed : Narrowed) :
    known.leave narrowed =
      if narrowed.instruction.transfersControl then ∅
      else (known.overwrite narrowed).learn narrowed := rfl

theorem Flat.overwrite (flat : known.Flat) (narrowed : Narrowed) :
    (known.overwrite narrowed).Flat := by
  unfold Known.overwrite
  split
  · exact flat.forget _
  · exact flat

theorem Flat.learn (flat : known.Flat) {narrowed : Narrowed}
    (unknown : ∀ operand ∈ narrowed.result?, ∀ read ∈ operand.vars, known.get? read = none) :
    ((known.overwrite narrowed).learn narrowed).Flat := by
  unfold Known.learn
  split
  · next destination operand fact =>
    obtain ⟨writes, settled, unmentioned⟩ := Narrowed.fact?_eq_some_iff.mp fact
    have overwritten : known.overwrite narrowed = known.forget destination := by
      simp only [Known.overwrite, writes]
    rw [overwritten]
    exact (flat.forget destination).insert
      (fun read occurs => get?_forget_eq_none (unknown operand settled read occurs)) unmentioned
      fun _ _ kept => (get?_forget_eq_some_iff.mp kept).2.2
  · exact flat.overwrite narrowed

theorem Flat.leave (flat : known.Flat) {narrowed : Narrowed}
    (unknown : ∀ operand ∈ narrowed.result?, ∀ read ∈ operand.vars, known.get? read = none) :
    (known.leave narrowed).Flat := by
  rw [leave_eq]
  split
  · exact flat_empty
  · exact flat.learn unknown

theorem Flat.leave_narrow (flat : known.Flat) (instruction : Instruction Value) :
    (known.leave (instruction.narrow known)).Flat :=
  flat.leave (Instruction.unknown_of_settled_narrow flat)

theorem Flat.after (flat : known.Flat) (options : FoldOptions) (instruction : Instruction Value) :
    (known.after options instruction).Flat :=
  (flat.enter options instruction).leave_narrow instruction

end Known

/-! ## The whole traversal -/

namespace Code

/-- Everything that is known at some time while a code is narrowed, in order. For each instruction
that is what was known behind the one before it, what is known where it is narrowed, what is left of
that once it has written, and what it told on top of that. -/
def traversal (known : Known) (options : FoldOptions) : Code Value → List Known
  | [] => [known]
  | instruction :: rest =>
    let entered := known.enter options instruction
    let narrowed := instruction.narrow entered
    let overwritten := entered.overwrite narrowed
    known :: entered :: overwritten :: overwritten.learn narrowed ::
      traversal (known.after options instruction) options rest

variable {options : FoldOptions} {known : Known}

theorem flat_of_mem_traversal (flat : known.Flat) {code : Code Value} :
    ∀ reached ∈ code.traversal known options, reached.Flat := by
  induction code generalizing known with
  | nil => simpa [traversal] using flat
  | cons instruction rest ih =>
      have entered := flat.enter options instruction
      simp only [traversal, List.forall_mem_cons]
      exact ⟨flat, entered, entered.overwrite _,
        entered.learn (Instruction.unknown_of_settled_narrow entered),
        ih (flat.after options instruction)⟩

private theorem mem_traversal_aux (code : Code Value) (position : Nat) :
    (match code[position]? with
      | some instruction =>
        ((code.take position).foldl (·.after options ·) known).enter options instruction
      | none => (code.take position).foldl (·.after options ·) known) ∈
      code.traversal known options := by
  induction code generalizing known position with
  | nil => simp [traversal]
  | cons instruction rest ih =>
      cases position with
      | zero => simp [traversal]
      | succ position =>
          simp only [List.getElem?_cons_succ, List.take_succ_cons, List.foldl_cons, traversal]
          iterate 4 apply List.mem_cons_of_mem
          exact ih position

/-- The fold narrows every instruction by what the traversal knows there. -/
theorem knownAt_mem_traversal (code : Code Value) (options : FoldOptions) (position : Nat) :
    code.knownAt options position ∈ code.traversal ∅ options :=
  mem_traversal_aux code position

/-- At no time does the folder know an operand that reads a variable it knows. So by what is known
at any time, looking up leaves nothing to look up, and a narrowed instruction is narrowed to
itself with the same result. -/
theorem knowledge_stays_flat (code : Code Value) (options : FoldOptions) :
    (∀ position, code.knownAt options position ∈ code.traversal ∅ options) ∧
    ∀ known ∈ code.traversal ∅ options,
      (∀ name operand, known.get? name = some operand →
        ∀ key, known.contains key = true → operand.mentions key = false) ∧
      (∀ operand : Operand Value,
        (operand.resolve known).resolve known = operand.resolve known ∧
        ∀ key, known.contains key = true → (operand.resolve known).mentions key = false) ∧
      ∀ instruction : Instruction Value,
        (instruction.narrow known).instruction.narrow known = instruction.narrow known := by
  refine ⟨code.knownAt_mem_traversal options, fun known reached => ?_⟩
  have flat : known.Flat := flat_of_mem_traversal Known.flat_empty known reached
  refine ⟨fun name operand found _ => ?_, fun operand => ?_, fun _ =>
    Instruction.narrow_narrow flat⟩
  · exact Operand.mentions_eq_false_of_unknown (flat name operand found)
  · have unknown : ∀ read ∈ (operand.resolve known).vars, known.get? read = none :=
      Operand.unknown_of_mem_vars_resolve flat
    exact ⟨Operand.resolve_eq_self unknown, fun _ =>
      Operand.mentions_eq_false_of_unknown unknown⟩

/-- A pair of an unknown variable and the receiver, and a pair of that pair. Writing the unknown
variable makes the folder forget both of them. -/
def pairedTwice : Code Value :=
  [.copy ⟨"a"⟩ (.array [.var ⟨"b"⟩, .self]), .copy ⟨"c"⟩ (.array [.var ⟨"a"⟩, .var ⟨"a"⟩]),
    .copy ⟨"b"⟩ (.var ⟨"c"⟩), .ret (.var ⟨"c"⟩)]

theorem pairedTwice_stays_flat :
    pairedTwice.knownAt {} 2 ∈ pairedTwice.traversal ∅ {} ∧
    (pairedTwice.knownAt {} 2).get? ⟨"c"⟩ = some (.array
      [.array [.var ⟨"b"⟩, .self], .array [.var ⟨"b"⟩, .self]]) ∧
    (pairedTwice.knownAt {} 2).contains ⟨"a"⟩ = true ∧
    ((Operand.var ⟨"c"⟩).resolve (pairedTwice.knownAt {} 2)).mentions ⟨"a"⟩ = false ∧
    (pairedTwice.knownAt {} 3).isEmpty = true := by
  obtain ⟨reached, flat⟩ := knowledge_stays_flat pairedTwice {}
  obtain ⟨-, resolved, -⟩ := flat _ (reached 2)
  exact ⟨reached 2, by decide, by decide, (resolved _).2 ⟨"a"⟩ (by decide), by decide⟩

end Code

end LinearIR
