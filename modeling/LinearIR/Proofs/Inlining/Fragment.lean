import LinearIR.Proofs.Evaluation
import LinearIR.Proofs.Inlining.FreshNames

/-!
# The parts of a fragment

Renaming is total on code whose names all have an image. The instructions of a fragment are the
copies of the arguments, renamed instructions of the callee, jumps to the exit and the exit's
label, so every name in it is an image or comes with the call.
-/

set_option autoImplicit false

namespace LinearIR

theorem Except.exists_mapM {ε α β : Type} {compute : α → Except ε β} {elements : List α}
    (succeed : ∀ element ∈ elements, ∃ result, compute element = .ok result) :
    ∃ results, elements.mapM compute = .ok results := by
  cases computed : elements.mapM compute with
  | ok results => exact ⟨results, rfl⟩
  | error error =>
      obtain ⟨element, member, failed⟩ := Except.exists_error_of_mapM computed
      obtain ⟨result, succeeded⟩ := succeed element member
      rw [failed] at succeeded
      cases succeeded

theorem Except.exists_of_mem_mapM {ε α β : Type} {compute : α → Except ε β} {elements : List α}
    {results : List β} (succeeded : elements.mapM compute = .ok results) {result : β}
    (member : result ∈ results) : ∃ element ∈ elements, compute element = .ok result := by
  have mapped : Except.ok result ∈ elements.map compute := by
    rw [Except.mapM_eq_ok_iff.mp succeeded]
    exact List.mem_map_of_mem member
  exact List.mem_map.mp mapped

namespace RenamingTable

variable {table : RenamingTable}

@[simp]
theorem renameVariable_eq_ok_iff {old new : Variable} :
    table.renameVariable old = .ok new ↔ table.vars.get? old = some new := by
  unfold renameVariable
  cases table.vars.get? old <;> simp

@[simp]
theorem renameLabel_eq_ok_iff {old new : Label} :
    table.renameLabel old = .ok new ↔ table.labels.get? old = some new := by
  unfold renameLabel
  cases table.labels.get? old <;> simp

end RenamingTable

namespace Operand

variable {table : RenamingTable} {operand renamed : Operand Value}

theorem rename_var_eq_ok_iff {name : Variable} :
    (var name).rename table = .ok renamed ↔
      ∃ new, table.vars.get? name = some new ∧ renamed = .var new := by
  simp only [rename, RenamingTable.renameVariable]
  cases table.vars.get? name <;> simp [bind, Except.bind, pure, Except.pure, eq_comm]

theorem rename_label_eq_ok_iff {name : Label} :
    (label name).rename table = .ok renamed ↔
      ∃ new, table.labels.get? name = some new ∧ renamed = .label new := by
  simp only [rename, RenamingTable.renameLabel]
  cases table.labels.get? name <;> simp [bind, Except.bind, pure, Except.pure, eq_comm]

theorem renameAll_eq_mapM (table : RenamingTable) (elements : List (Operand Value)) :
    renameAll table elements = elements.mapM (rename table) := by
  induction elements with
  | nil => rfl
  | cons first rest ih => rw [renameAll, List.mapM_cons, ih]

theorem rename_array_eq_ok_iff {elements : List (Operand Value)} :
    (array elements).rename table = .ok renamed ↔
      ∃ results, elements.mapM (rename table) = .ok results ∧ renamed = .array results := by
  rw [rename, renameAll_eq_mapM]
  cases elements.mapM (rename table) <;> simp [bind, Except.bind, pure, Except.pure, eq_comm]

theorem exists_rename (vars : ∀ name ∈ operand.vars, (table.vars.get? name).isSome)
    (labels : ∀ name ∈ operand.labels, (table.labels.get? name).isSome) :
    ∃ renamed, operand.rename table = .ok renamed := by
  induction operand using Operand.induction with
  | var name =>
      obtain ⟨new, image⟩ := Option.isSome_iff_exists.mp (vars name (by simp [Operand.vars]))
      exact ⟨.var new, rename_var_eq_ok_iff.mpr ⟨new, image, rfl⟩⟩
  | constant value => exact ⟨.constant value, rfl⟩
  | array elements ih =>
      have renames : ∃ results, elements.mapM (rename table) = .ok results := by
        apply Except.exists_mapM
        intro element member
        apply ih element member
        · intro name occurs
          exact vars name (by simpa [Operand.vars] using ⟨element, member, occurs⟩)
        · intro name occurs
          exact labels name (by simpa [Operand.labels] using ⟨element, member, occurs⟩)
      obtain ⟨results, succeeded⟩ := renames
      exact ⟨.array results, rename_array_eq_ok_iff.mpr ⟨results, succeeded, rfl⟩⟩
  | label name =>
      obtain ⟨new, image⟩ := Option.isSome_iff_exists.mp (labels name (by simp [Operand.labels]))
      exact ⟨.label new, rename_label_eq_ok_iff.mpr ⟨new, image, rfl⟩⟩
  | self => exact ⟨table.receiver, rfl⟩

/-- Every name in the operand is of a certain kind. -/
structure Within (operand : Operand Value) (varKind : Variable → Prop)
    (labelKind : Label → Prop) : Prop where
  vars : ∀ name ∈ operand.vars, varKind name
  labels : ∀ name ∈ operand.labels, labelKind name

theorem Within.imp {varKind varKind' : Variable → Prop}
    {labelKind labelKind' : Label → Prop} (within : operand.Within varKind labelKind)
    (vars : ∀ name, varKind name → varKind' name)
    (labels : ∀ name, labelKind name → labelKind' name) : operand.Within varKind' labelKind' where
  vars := fun name occurs => vars name (within.vars name occurs)
  labels := fun name occurs => labels name (within.labels name occurs)

theorem within_array_iff {elements : List (Operand Value)} {varKind : Variable → Prop}
    {labelKind : Label → Prop} :
    (array elements).Within varKind labelKind ↔
      ∀ element ∈ elements, element.Within varKind labelKind := by
  constructor
  · intro within element member
    constructor
    · intro name occurs
      exact within.vars name (by simpa [Operand.vars] using ⟨element, member, occurs⟩)
    · intro name occurs
      exact within.labels name (by simpa [Operand.labels] using ⟨element, member, occurs⟩)
  · intro within
    constructor
    · intro name occurs
      simp only [Operand.vars, listVars_eq_flatMap, List.mem_flatMap] at occurs
      obtain ⟨element, member, occurs⟩ := occurs
      exact (within element member).vars name occurs
    · intro name occurs
      simp only [Operand.labels, listLabels_eq_flatMap, List.mem_flatMap] at occurs
      obtain ⟨element, member, occurs⟩ := occurs
      exact (within element member).labels name occurs

end Operand

/-- Kinds of names that take in all images of a table, and all that comes with the call. -/
structure RenamingTable.Within (table : RenamingTable) (varKind : Variable → Prop)
    (labelKind : Label → Prop) : Prop where
  vars : ∀ old new, table.vars.get? old = some new → varKind new
  labels : ∀ old new, table.labels.get? old = some new → labelKind new
  receiver : table.receiver.Within varKind labelKind
  callResult : varKind table.callResult
  exitLabel : labelKind table.exitLabel

variable {table : RenamingTable} {varKind : Variable → Prop} {labelKind : Label → Prop}

theorem Operand.rename_within (within : table.Within varKind labelKind)
    {operand renamed : Operand Value} (succeeded : operand.rename table = .ok renamed) :
    renamed.Within varKind labelKind := by
  induction operand using Operand.induction generalizing renamed with
  | var name =>
      obtain ⟨new, image, rfl⟩ := rename_var_eq_ok_iff.mp succeeded
      exact ⟨by simpa [Operand.vars] using within.vars name new image, by simp [Operand.labels]⟩
  | constant value =>
      cases succeeded
      exact ⟨by simp [Operand.vars], by simp [Operand.labels]⟩
  | array elements ih =>
      obtain ⟨results, all, rfl⟩ := rename_array_eq_ok_iff.mp succeeded
      refine within_array_iff.mpr fun result member => ?_
      obtain ⟨element, elementMember, elementRenamed⟩ := Except.exists_of_mem_mapM all member
      exact ih element elementMember elementRenamed
  | label name =>
      obtain ⟨new, image, rfl⟩ := rename_label_eq_ok_iff.mp succeeded
      exact ⟨by simp [Operand.vars], by simpa [Operand.labels] using within.labels name new image⟩
  | self =>
      cases succeeded
      exact within.receiver

namespace Instruction

/-- What becomes of an instruction, by the images of its names. -/
inductive Renames (table : RenamingTable) : Instruction Value → Instruction Value → Prop where
  | copy {result result' source source'} :
      table.vars.get? result = some result' → source.rename table = .ok source' →
      Renames table (.copy result source) (.copy result' source')
  | getArray {result result' array array' index takeRest} :
      table.vars.get? result = some result' → array.rename table = .ok array' →
      Renames table (.getArray result array index takeRest)
        (.getArray result' array' index takeRest)
  | label {name name'} :
      table.labels.get? name = some name' → Renames table (.label name) (.label name')
  | jump {target target'} :
      table.labels.get? target = some target' → Renames table (.jump target) (.jump target')
  | beq {first first' second second' target target'} :
      first.rename table = .ok first' → second.rename table = .ok second' →
      table.labels.get? target = some target' →
      Renames table (.beq first second target) (.beq first' second' target')
  | ret {value value'} :
      value.rename table = .ok value' → Renames table (.ret value) (.copy table.callResult value')

variable {instruction renamed : Instruction Value}

theorem rename_eq_ok_iff :
    instruction.rename table = .ok renamed ↔ Renames table instruction renamed := by
  constructor
  · intro succeeded
    cases instruction with
    | copy result source =>
        obtain ⟨result', image, rest⟩ := Except.exists_ok_of_bind succeeded
        obtain ⟨source', sourceRenamed, same⟩ := Except.exists_ok_of_bind rest
        cases same
        exact .copy (by simpa using image) sourceRenamed
    | getArray result array index takeRest =>
        obtain ⟨result', image, rest⟩ := Except.exists_ok_of_bind succeeded
        obtain ⟨array', arrayRenamed, same⟩ := Except.exists_ok_of_bind rest
        cases same
        exact .getArray (by simpa using image) arrayRenamed
    | label name =>
        obtain ⟨name', image, same⟩ := Except.exists_ok_of_bind succeeded
        cases same
        exact .label (by simpa using image)
    | jump target =>
        obtain ⟨target', image, same⟩ := Except.exists_ok_of_bind succeeded
        cases same
        exact .jump (by simpa using image)
    | beq first second target =>
        obtain ⟨first', firstRenamed, rest⟩ := Except.exists_ok_of_bind succeeded
        obtain ⟨second', secondRenamed, rest⟩ := Except.exists_ok_of_bind rest
        obtain ⟨target', image, same⟩ := Except.exists_ok_of_bind rest
        cases same
        exact .beq firstRenamed secondRenamed (by simpa using image)
    | ret value =>
        obtain ⟨value', valueRenamed, same⟩ := Except.exists_ok_of_bind succeeded
        cases same
        exact .ret valueRenamed
  · intro renames
    cases renames <;>
      simp [rename, RenamingTable.renameVariable, RenamingTable.renameLabel, bind, Except.bind,
        pure, Except.pure, *]

theorem exists_rename (vars : ∀ name ∈ instruction.vars, (table.vars.get? name).isSome)
    (labels : ∀ name ∈ instruction.labels, (table.labels.get? name).isSome) :
    ∃ renamed, instruction.rename table = .ok renamed := by
  have operandRenamed : ∀ operand ∈ instruction.operands,
      ∃ renamed, operand.rename table = .ok renamed := by
    intro operand member
    refine Operand.exists_rename ?_ ?_
    · intro name occurs
      exact vars name (mem_vars_iff.mpr (.inr ⟨operand, member, occurs⟩))
    · intro name occurs
      exact labels name (mem_labels_iff.mpr (.inr ⟨operand, member, occurs⟩))
  have resultRenamed : ∀ name ∈ instruction.result?, ∃ new, table.vars.get? name = some new :=
    fun name result => Option.isSome_iff_exists.mp
      (vars name (mem_vars_iff.mpr (.inl result)))
  have labelRenamed : ∀ name ∈ instruction.label?, ∃ new, table.labels.get? name = some new :=
    fun name label => Option.isSome_iff_exists.mp
      (labels name (mem_labels_iff.mpr (.inl label)))
  cases instruction with
  | copy result source =>
      obtain ⟨result', image⟩ := resultRenamed result rfl
      obtain ⟨source', sourceRenamed⟩ := operandRenamed source List.mem_cons_self
      exact ⟨_, rename_eq_ok_iff.mpr (.copy image sourceRenamed)⟩
  | getArray result array index takeRest =>
      obtain ⟨result', image⟩ := resultRenamed result rfl
      obtain ⟨array', arrayRenamed⟩ := operandRenamed array List.mem_cons_self
      exact ⟨_, rename_eq_ok_iff.mpr (.getArray image arrayRenamed)⟩
  | label name =>
      obtain ⟨name', image⟩ := labelRenamed name rfl
      exact ⟨_, rename_eq_ok_iff.mpr (.label image)⟩
  | jump target =>
      obtain ⟨target', image⟩ := labelRenamed target rfl
      exact ⟨_, rename_eq_ok_iff.mpr (.jump image)⟩
  | beq first second target =>
      obtain ⟨first', firstRenamed⟩ := operandRenamed first List.mem_cons_self
      obtain ⟨second', secondRenamed⟩ :=
        operandRenamed second (List.mem_cons_of_mem _ List.mem_cons_self)
      obtain ⟨target', image⟩ := labelRenamed target rfl
      exact ⟨_, rename_eq_ok_iff.mpr (.beq firstRenamed secondRenamed image)⟩
  | ret value =>
      obtain ⟨value', valueRenamed⟩ := operandRenamed value List.mem_cons_self
      exact ⟨_, rename_eq_ok_iff.mpr (.ret valueRenamed)⟩

structure Within (instruction : Instruction Value) (varKind : Variable → Prop)
    (labelKind : Label → Prop) : Prop where
  vars : ∀ name ∈ instruction.vars, varKind name
  labels : ∀ name ∈ instruction.labels, labelKind name

theorem Within.imp {varKind' : Variable → Prop} {labelKind' : Label → Prop}
    (within : instruction.Within varKind labelKind)
    (vars : ∀ name, varKind name → varKind' name)
    (labels : ∀ name, labelKind name → labelKind' name) :
    instruction.Within varKind' labelKind' where
  vars := fun name occurs => vars name (within.vars name occurs)
  labels := fun name occurs => labels name (within.labels name occurs)

theorem within_of_parts
    (operands : ∀ operand ∈ instruction.operands, operand.Within varKind labelKind)
    (result : ∀ name ∈ instruction.result?, varKind name)
    (label : ∀ name ∈ instruction.label?, labelKind name) :
    instruction.Within varKind labelKind := by
  constructor
  · intro name occurs
    rcases mem_vars_iff.mp occurs with written | ⟨operand, member, occurs⟩
    · exact result name written
    · exact (operands operand member).vars name occurs
  · intro name occurs
    rcases mem_labels_iff.mp occurs with own | ⟨operand, member, occurs⟩
    · exact label name own
    · exact (operands operand member).labels name occurs

theorem Renames.within (within : table.Within varKind labelKind)
    (renames : Renames table instruction renamed) : renamed.Within varKind labelKind := by
  have operandWithin : ∀ {operand operand' : Operand Value},
      operand.rename table = .ok operand' → operand'.Within varKind labelKind :=
    fun succeeded => Operand.rename_within within succeeded
  cases renames with
  | copy image sourceRenamed =>
      exact within_of_parts (by simpa [operands] using operandWithin sourceRenamed)
        (by simpa [result?] using within.vars _ _ image) (by simp [label?])
  | getArray image arrayRenamed =>
      exact within_of_parts (by simpa [operands] using operandWithin arrayRenamed)
        (by simpa [result?] using within.vars _ _ image) (by simp [label?])
  | label image | jump image =>
      exact within_of_parts (by simp [operands]) (by simp [result?])
        (by simpa [label?] using within.labels _ _ image)
  | beq firstRenamed secondRenamed image =>
      exact within_of_parts
        (by simpa [operands] using ⟨operandWithin firstRenamed, operandWithin secondRenamed⟩)
        (by simp [result?]) (by simpa [label?] using within.labels _ _ image)
  | ret valueRenamed =>
      exact within_of_parts (by simpa [operands] using operandWithin valueRenamed)
        (by simpa [result?] using within.callResult) (by simp [label?])

theorem Renames.isReturn_eq_false (renames : Renames table instruction renamed) :
    renamed.isReturn = false := by
  cases renames <;> rfl

end Instruction

namespace RenamingTable

theorem exists_passArguments {pairs : List (Variable × Operand Value)}
    (renames : ∀ pair ∈ pairs, (table.vars.get? pair.1).isSome) :
    ∃ passed, table.passArguments pairs = .ok passed := by
  induction pairs with
  | nil => exact ⟨[], rfl⟩
  | cons pair rest ih =>
      obtain ⟨first, later⟩ := List.forall_mem_cons.mp renames
      obtain ⟨image, renamed⟩ := Option.isSome_iff_exists.mp first
      obtain ⟨passed, succeeded⟩ := ih later
      refine ⟨.copy image pair.2 :: passed, ?_⟩
      simp [passArguments, renameVariable, renamed, succeeded, bind, Except.bind, pure, Except.pure]

theorem passArguments_cons {param : Variable} {argument : Operand Value}
    {rest : List (Variable × Operand Value)} {passed : Code Value}
    (succeeded : table.passArguments ((param, argument) :: rest) = .ok passed) :
    ∃ image following, table.vars.get? param = some image ∧
      table.passArguments rest = .ok following ∧ passed = .copy image argument :: following := by
  obtain ⟨image, renamed, succeeded⟩ := Except.exists_ok_of_bind succeeded
  obtain ⟨following, restPassed, same⟩ := Except.exists_ok_of_bind succeeded
  cases same
  exact ⟨image, following, by simpa using renamed, restPassed, rfl⟩

theorem exists_renameBody {code : Code Value}
    (renames : ∀ instruction ∈ code, ∃ renamed, instruction.rename table = .ok renamed) :
    ∃ body, table.renameBody code = .ok body := by
  induction code with
  | nil => exact ⟨[], rfl⟩
  | cons instruction rest ih =>
      obtain ⟨first, later⟩ := List.forall_mem_cons.mp renames
      obtain ⟨renamed, firstRenamed⟩ := first
      obtain ⟨body, restRenamed⟩ := ih later
      simp only [renameBody, firstRenamed, restRenamed, bind, Except.bind, pure, Except.pure]
      split <;> exact ⟨_, rfl⟩

theorem renameBody_cons {instruction : Instruction Value} {rest body : Code Value}
    (succeeded : table.renameBody (instruction :: rest) = .ok body) :
    ∃ renamed following, instruction.Renames table renamed ∧
      table.renameBody rest = .ok following ∧
      body = renamed ::
        ((if instruction.isReturn then [.jump table.exitLabel] else []) ++ following) := by
  obtain ⟨renamed, firstRenamed, succeeded⟩ := Except.exists_ok_of_bind succeeded
  obtain ⟨following, restRenamed, same⟩ := Except.exists_ok_of_bind succeeded
  refine ⟨renamed, following, Instruction.rename_eq_ok_iff.mp firstRenamed, restRenamed, ?_⟩
  split at same <;> cases same <;> simp [*]

inductive Emits (table : RenamingTable) (callee : Scope) (arguments : List (Operand Value)) :
    Instruction Value → Prop where
  | pass {param argument image} :
      argument ∈ arguments → table.vars.get? param = some image →
      Emits table callee arguments (.copy image argument)
  | body {instruction renamed} :
      instruction ∈ callee.instructions → instruction.Renames table renamed →
      Emits table callee arguments renamed
  | leave : Emits table callee arguments (.jump table.exitLabel)
  | exit : Emits table callee arguments (.label table.exitLabel)

theorem emits_of_mem_passArguments {callee : Scope} {arguments : List (Operand Value)}
    {pairs : List (Variable × Operand Value)} (given : ∀ pair ∈ pairs, pair.2 ∈ arguments)
    {passed : Code Value} (succeeded : table.passArguments pairs = .ok passed) :
    ∀ instruction ∈ passed, table.Emits callee arguments instruction := by
  induction pairs generalizing passed with
  | nil => cases succeeded; nofun
  | cons pair rest ih =>
      obtain ⟨first, later⟩ := List.forall_mem_cons.mp given
      obtain ⟨image, following, renamed, restPassed, rfl⟩ := passArguments_cons succeeded
      exact List.forall_mem_cons.mpr ⟨.pass first renamed, ih later restPassed⟩

theorem emits_of_mem_renameBody {callee : Scope} {arguments : List (Operand Value)}
    {code : Code Value} (given : ∀ instruction ∈ code, instruction ∈ callee.instructions)
    {body : Code Value} (succeeded : table.renameBody code = .ok body) :
    ∀ instruction ∈ body, table.Emits callee arguments instruction := by
  induction code generalizing body with
  | nil => cases succeeded; nofun
  | cons instruction rest ih =>
      obtain ⟨first, later⟩ := List.forall_mem_cons.mp given
      obtain ⟨renamed, following, renames, restRenamed, rfl⟩ := renameBody_cons succeeded
      refine List.forall_mem_cons.mpr ⟨.body first renames, ?_⟩
      intro emitted member
      rcases List.mem_append.mp member with jump | member
      · split at jump
        · obtain rfl := List.mem_singleton.mp jump
          exact .leave
        · cases jump
      · exact ih later restRenamed emitted member

/-- A name that a fragment contains is of a kind that takes in the images and what comes with
the call. -/
theorem Emits.within {callee : Scope} {arguments : List (Operand Value)}
    {instruction : Instruction Value} (emits : table.Emits callee arguments instruction)
    (within : table.Within varKind labelKind)
    (argumentsWithin : ∀ argument ∈ arguments, argument.Within varKind labelKind) :
    instruction.Within varKind labelKind := by
  cases emits with
  | pass given renamed =>
      exact Instruction.within_of_parts
        (by simpa [Instruction.operands] using argumentsWithin _ given)
        (by simpa [Instruction.result?] using within.vars _ _ renamed)
        (by simp [Instruction.label?])
  | body member renames => exact renames.within within
  | leave | exit =>
      exact Instruction.within_of_parts (by simp [Instruction.operands])
        (by simp [Instruction.result?]) (by simpa [Instruction.label?] using within.exitLabel)

theorem Emits.isReturn_eq_false {callee : Scope} {arguments : List (Operand Value)}
    {instruction : Instruction Value} (emits : table.Emits callee arguments instruction) :
    instruction.isReturn = false := by
  cases emits with
  | body member renames => exact renames.isReturn_eq_false
  | pass | leave | exit => rfl

end RenamingTable

namespace Scope

variable {caller callee after : Scope} {receiver : Operand Value}
  {arguments : List (Operand Value)} {result? : Option Variable} {fragment : Code Value}

theorem inline_eq_ok_iff :
    caller.inline callee receiver arguments result? = .ok (fragment, after) ↔
      ∃ table passed body, caller.renamingTable callee receiver result? = (table, after) ∧
        arguments.length = callee.params.length ∧
        table.passArguments (callee.params.zip arguments) = .ok passed ∧
        table.renameBody callee.instructions = .ok body ∧
        fragment = passed ++ body ++ [.label table.exitLabel] := by
  constructor
  · intro inlined
    by_cases sameLength : arguments.length = callee.params.length
    · simp only [inline, sameLength, ne_eq, not_true_eq_false, if_false] at inlined
      obtain ⟨passed, passedArguments, inlined⟩ := Except.exists_ok_of_bind inlined
      obtain ⟨body, renamedBody, same⟩ := Except.exists_ok_of_bind inlined
      cases same
      exact ⟨_, passed, body, rfl, sameLength, passedArguments, renamedBody, rfl⟩
    · rw [inline, if_pos sameLength] at inlined
      cases inlined
  · intro parts
    obtain ⟨table, passed, body, built, sameLength, passedArguments, renamedBody, rfl⟩ := parts
    simp [inline, sameLength, built, passedArguments, renamedBody, bind, Except.bind, pure,
      Except.pure]

theorem emits_of_inline
    (inlined : caller.inline callee receiver arguments result? = .ok (fragment, after)) :
    ∃ table, caller.renamingTable callee receiver result? = (table, after) ∧
      ∀ instruction ∈ fragment, table.Emits callee arguments instruction := by
  obtain ⟨table, passed, body, built, -, passedArguments, renamedBody, rfl⟩ :=
    inline_eq_ok_iff.mp inlined
  refine ⟨table, built, fun instruction member => ?_⟩
  rcases List.mem_append.mp member with member | exit
  · rcases List.mem_append.mp member with passes | renamed
    · refine RenamingTable.emits_of_mem_passArguments ?_ passedArguments instruction passes
      exact fun pair zipped => (List.of_mem_zip zipped).2
    · refine RenamingTable.emits_of_mem_renameBody ?_ renamedBody instruction renamed
      exact fun _ member => member
  · obtain rfl := List.mem_singleton.mp exit
    exact .exit

/-- A call with the right number of arguments has a fragment. -/
theorem exists_inline (caller callee : Scope) (receiver : Operand Value)
    {arguments : List (Operand Value)} (result? : Option Variable)
    (sameLength : arguments.length = callee.params.length) :
    ∃ fragment after, caller.inline callee receiver arguments result? = .ok (fragment, after) := by
  have serves := caller.renamingTable_serves callee receiver result?
  obtain ⟨passed, passedArguments⟩ : ∃ passed,
      (caller.renamingTable callee receiver result?).1.passArguments
        (callee.params.zip arguments) = .ok passed := by
    refine RenamingTable.exists_passArguments fun pair zipped => ?_
    exact (serves.renames_var pair.1).mpr (mem_vars_iff.mpr (.inl (List.of_mem_zip zipped).1))
  obtain ⟨body, renamedBody⟩ : ∃ body,
      (caller.renamingTable callee receiver result?).1.renameBody callee.instructions =
        .ok body := by
    refine RenamingTable.exists_renameBody fun instruction member => ?_
    refine Instruction.exists_rename ?_ ?_
    · intro name occurs
      exact (serves.renames_var name).mpr (mem_vars_iff.mpr (.inr ⟨instruction, member, occurs⟩))
    · intro name occurs
      exact (serves.renames_label name).mpr (mem_labels_iff.mpr ⟨instruction, member, occurs⟩)
  exact ⟨_, _, inline_eq_ok_iff.mpr
    ⟨_, passed, body, rfl, sameLength, passedArguments, renamedBody, rfl⟩⟩

end Scope

end LinearIR
