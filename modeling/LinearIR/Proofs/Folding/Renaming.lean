import Mathlib.Data.List.Forall2
import LinearIR.Proofs.Folding.Names

/-!
# Folding renamed code

Folding looks at a name only to tell whether it is another one. So code may be renamed into another
scope before it is folded or afterwards, if different variables get different names and the receiver
becomes an operand about which nothing is ever known.
-/

set_option autoImplicit false

namespace LinearIR

theorem Except.mapM_eq_ok_iff_forall₂ {ε α β : Type} {compute : α → Except ε β}
    {elements : List α} {results : List β} :
    elements.mapM compute = .ok results ↔
      List.Forall₂ (fun element result => compute element = .ok result) elements results := by
  rw [Except.mapM_eq_ok_iff, ← List.forall₂_eq_eq_eq, List.forall₂_map_left_iff,
    List.forall₂_map_right_iff]

private theorem exists_mem_iff_of_forall₂ {α β : Type} {related : α → β → Prop} {holds : α → Prop}
    {holds' : β → Prop} {elements : List α} {elements' : List β}
    (pairs : List.Forall₂ related elements elements')
    (agree : ∀ element ∈ elements, ∀ element', related element element' →
      (holds' element' ↔ holds element)) :
    (∃ element' ∈ elements', holds' element') ↔ ∃ element ∈ elements, holds element := by
  induction pairs with
  | nil => simp
  | cons first rest ih =>
      obtain ⟨head, tail⟩ := List.forall_mem_cons.mp agree
      simp only [List.exists_mem_cons_iff, head _ first, ih tail]

/-- Different variables get different names, and the receiver becomes the receiver or a variable
that no variable gets as its name. -/
structure RenamingTable.Faithful (table : RenamingTable) : Prop where
  unique : ∀ first second image, table.vars.get? first = some image →
    table.vars.get? second = some image → first = second
  receiver : table.receiver = .self ∨
    ∃ name, table.receiver = .var name ∧ ∀ old, table.vars.get? old ≠ some name

theorem RenamingTable.Faithful.eq_iff {table : RenamingTable} (faithful : table.Faithful)
    {old new old' new' : Variable} (image : table.vars.get? old = some new)
    (image' : table.vars.get? old' = some new') : new = new' ↔ old = old' := by
  constructor
  · intro same
    exact faithful.unique old old' new' (same ▸ image) image'
  · intro same
    subst same
    exact Option.some.inj (image.symm.trans image')

variable {table : RenamingTable}

/-! ## Operands -/

namespace Operand

abbrev Renames (table : RenamingTable) (operand renamed : Operand Value) : Prop :=
  operand.rename table = .ok renamed

variable {operand renamed : Operand Value}

theorem renames_array_iff {elements : List (Operand Value)} :
    (array elements).Renames table renamed ↔
      ∃ results, List.Forall₂ (Renames table) elements results ∧ renamed = .array results := by
  simp only [Renames, rename_array_eq_ok_iff, Except.mapM_eq_ok_iff_forall₂]

namespace Renames

theorem mem_vars_iff (faithful : table.Faithful) (renames : operand.Renames table renamed)
    {old new : Variable} (image : table.vars.get? old = some new) :
    new ∈ renamed.vars ↔ old ∈ operand.vars := by
  induction operand using Operand.induction generalizing renamed with
  | var name =>
      obtain ⟨name', nameImage, rfl⟩ := rename_var_eq_ok_iff.mp renames
      simpa [vars] using faithful.eq_iff image nameImage
  | constant value => cases renames; simp [vars]
  | array elements ih =>
      obtain ⟨results, pairs, rfl⟩ := renames_array_iff.mp renames
      simp only [vars, listVars_eq_flatMap, List.mem_flatMap]
      exact exists_mem_iff_of_forall₂ pairs fun element member _ renames =>
        ih element member renames
  | label name =>
      obtain ⟨name', -, rfl⟩ := rename_label_eq_ok_iff.mp renames
      simp [vars]
  | self =>
      cases renames
      rcases faithful.receiver with same | ⟨name, same, apart⟩
      · simp [same, vars]
      · have differs : new ≠ name := fun same => apart old (same ▸ image)
        simp [same, vars, differs]

theorem mentions_eq (faithful : table.Faithful) (renames : operand.Renames table renamed)
    {old new : Variable} (image : table.vars.get? old = some new) :
    renamed.mentions new = operand.mentions old := by
  rw [Bool.eq_iff_iff, mentions_iff_mem_vars, mentions_iff_mem_vars]
  exact renames.mem_vars_iff faithful image

/-- The part of a renamed literal is the renamed part of the literal, and a renamed operand without
known parts has none. -/
theorem extract (faithful : table.Faithful) (renames : operand.Renames table renamed) (index : Nat)
    (takeRest : Bool) :
    Option.Rel (Renames table) (operand.extract index takeRest).toOption
      (renamed.extract index takeRest).toOption := by
  cases operand with
  | var name =>
      obtain ⟨name', -, rfl⟩ := rename_var_eq_ok_iff.mp renames
      exact .none
  | constant value =>
      cases renames
      simp only [Operand.extract]
      cases value.extract? index takeRest with
      | none => exact .none
      | some part => exact .some rfl
  | array elements =>
      obtain ⟨results, all, rfl⟩ := rename_array_eq_ok_iff.mp renames
      cases takeRest with
      | true => exact .some (rename_array_eq_ok_iff.mpr ⟨_, Except.mapM_drop all index, rfl⟩)
      | false =>
          refine .some ?_
          have sameElement := Except.getElem?_of_mapM all index
          cases found : elements[index]? <;> cases found' : results[index]? <;>
            rw [found, found'] at sameElement
          · rfl
          · cases sameElement
          · cases sameElement
          · exact Option.some.inj sameElement
  | label name =>
      obtain ⟨name', -, rfl⟩ := rename_label_eq_ok_iff.mp renames
      exact .none
  | self =>
      cases renames
      rcases faithful.receiver with same | ⟨name, same, -⟩
      · rw [same]
        exact .none
      · rw [same]
        exact .none

end Renames

end Operand

/-! ## Instructions -/

namespace Instruction.Renames

variable {instruction renamed : Instruction Value}

theorem operands (renames : instruction.Renames table renamed) :
    List.Forall₂ (Operand.Renames table) instruction.operands renamed.operands := by
  cases renames with
  | copy _ operandRenamed | getArray _ operandRenamed | ret operandRenamed =>
      exact .cons operandRenamed .nil
  | label | jump => exact .nil
  | beq firstRenamed secondRenamed => exact .cons firstRenamed (.cons secondRenamed .nil)

theorem mem_reads_iff (faithful : table.Faithful) (renames : instruction.Renames table renamed)
    {old new : Variable} (image : table.vars.get? old = some new) :
    new ∈ renamed.reads ↔ old ∈ instruction.reads := by
  simp only [reads, List.mem_flatMap]
  exact exists_mem_iff_of_forall₂ renames.operands fun _ _ _ renames =>
    renames.mem_vars_iff faithful image

theorem isLabel_eq (renames : instruction.Renames table renamed) :
    renamed.isLabel = instruction.isLabel := by
  cases renames <;> rfl

theorem mapOperands (renames : instruction.Renames table renamed)
    {replace replace' : Operand Value → Operand Value}
    (kept : ∀ operand operand', operand.Renames table operand' →
      (replace operand).Renames table (replace' operand')) :
    (instruction.mapOperands replace).Renames table (renamed.mapOperands replace') := by
  cases renames with
  | copy image sourceRenamed => exact .copy image (kept _ _ sourceRenamed)
  | getArray image arrayRenamed => exact .getArray image (kept _ _ arrayRenamed)
  | label image => exact .label image
  | jump image => exact .jump image
  | beq firstRenamed secondRenamed image =>
      exact .beq (kept _ _ firstRenamed) (kept _ _ secondRenamed) image
  | ret valueRenamed => exact .ret (kept _ _ valueRenamed)

/-! A return is renamed to a copy, which goes on to the next instruction and writes a variable. All
other instructions stay what they are. -/

section

variable (renames : instruction.Renames table renamed) (stays : instruction.isReturn = false)

include renames stays

theorem transfersControl_eq : renamed.transfersControl = instruction.transfersControl := by
  cases renames with
  | copy | getArray | label | jump | beq => rfl
  | ret => cases stays

theorem result : Option.Rel (fun old new => table.vars.get? old = some new) instruction.result?
    renamed.result? := by
  cases renames with
  | copy image | getArray image => exact .some image
  | label | jump | beq => exact .none
  | ret => cases stays

theorem settled (faithful : table.Faithful) :
    Option.Rel (Operand.Renames table) instruction.settled? renamed.settled? := by
  cases renames with
  | copy _ sourceRenamed => exact .some sourceRenamed
  | getArray _ arrayRenamed => exact Operand.Renames.extract faithful arrayRenamed _ _
  | label | jump | beq => exact .none
  | ret => cases stays

end

end Instruction.Renames

/-! ## What is known -/

/-- What is known about a variable is known, renamed, about its image, and nothing more is known
about that. Nothing is known about the receiver. -/
structure Known.Renames (table : RenamingTable) (known known' : Known) : Prop where
  image : ∀ old new, table.vars.get? old = some new →
    Option.Rel (Operand.Renames table) (known.get? old) (known'.get? new)
  receiver : ∀ name, table.receiver = .var name → known'.get? name = none

theorem Known.get?_forget (known : Known) (stored name : Variable) :
    (known.forget stored).get? name =
      if name = stored then none else (known.get? name).filter (!·.mentions stored) := by
  refine Option.ext fun operand => ?_
  rw [get?_forget_eq_some_iff]
  split
  · next same => simp [same]
  · next differs => simp [differs, Option.filter_eq_some_iff]

namespace Known.Renames

variable {known known' : Known}

theorem empty (table : RenamingTable) : Known.Renames table ∅ ∅ where
  image _ _ _ := .none
  receiver _ _ := rfl

variable (renames : known.Renames table known')

include renames

theorem enter (options : FoldOptions) {instruction renamed : Instruction Value}
    (sameKind : renamed.isLabel = instruction.isLabel) :
    (known.enter options instruction).Renames table (known'.enter options renamed) := by
  unfold Known.enter
  rw [sameKind]
  split
  · exact .empty table
  · exact renames

theorem forget (faithful : table.Faithful) {stored stored' : Variable}
    (storedImage : table.vars.get? stored = some stored') :
    (known.forget stored).Renames table (known'.forget stored') where
  image := by
    intro old new image
    rw [get?_forget, get?_forget, if_congr (faithful.eq_iff image storedImage) rfl rfl]
    split
    · exact .none
    · have before := renames.image old new image
      revert before
      generalize known.get? old = found
      generalize known'.get? new = found'
      intro before
      cases before with
      | none => exact .none
      | some operandRenamed =>
          simp only [Option.filter_some, operandRenamed.mentions_eq faithful storedImage]
          split
          · exact .some operandRenamed
          · exact .none
  receiver := by
    intro name same
    rw [get?_forget, renames.receiver name same]
    simp

theorem insert (faithful : table.Faithful) {stored stored' : Variable}
    (storedImage : table.vars.get? stored = some stored') {operand operand' : Operand Value}
    (operandRenamed : operand.Renames table operand') :
    Known.Renames table (Bindings.insert known stored operand)
      (Bindings.insert known' stored' operand') where
  image := by
    intro old new image
    rw [Bindings.get?_insert, Bindings.get?_insert,
      if_congr (faithful.eq_iff image storedImage) rfl rfl]
    split
    · exact .some operandRenamed
    · exact renames.image old new image
  receiver := by
    intro name same
    have differs : name ≠ stored' := by
      rintro rfl
      rcases faithful.receiver with isSelf | ⟨other, isVar, apart⟩
      · rw [isSelf] at same
        cases same
      · rw [isVar] at same
        cases same
        exact apart stored storedImage
    rw [Bindings.get?_insert, if_neg differs]
    exact renames.receiver name same

end Known.Renames

theorem Operand.Renames.resolve {known known' : Known} (knownRenames : known.Renames table known')
    (faithful : table.Faithful) {operand renamed : Operand Value}
    (renames : operand.Renames table renamed) :
    (operand.resolve known).Renames table (renamed.resolve known') := by
  induction operand using Operand.induction generalizing renamed with
  | var name =>
      obtain ⟨name', image, rfl⟩ := rename_var_eq_ok_iff.mp renames
      have found := knownRenames.image name name' image
      simp only [Operand.resolve]
      generalize known.get? name = operand at found
      generalize known'.get? name' = operand' at found
      cases found with
      | none => exact renames
      | some operandRenamed => exact operandRenamed
  | constant value => cases renames; rfl
  | array elements ih =>
      obtain ⟨results, pairs, rfl⟩ := renames_array_iff.mp renames
      simp only [Operand.resolve, resolveAll_eq_map]
      refine renames_array_iff.mpr ⟨_, ?_, rfl⟩
      rw [List.forall₂_map_left_iff, List.forall₂_map_right_iff]
      have both := (List.forall₂_and_left _ _).mpr ⟨ih, pairs⟩
      exact both.imp fun element result renames => renames.1 renames.2
  | label name =>
      obtain ⟨name', -, rfl⟩ := rename_label_eq_ok_iff.mp renames
      exact renames
  | self =>
      cases renames
      have kept : table.receiver.resolve known' = table.receiver := by
        rcases faithful.receiver with same | ⟨name, same, -⟩
        · rw [same]
          rfl
        · rw [same, Operand.resolve, knownRenames.receiver name same, Option.getD_none]
      rw [kept]
      rfl

/-! ## The traversal -/

structure Narrowed.Renames (table : RenamingTable) (narrowed narrowed' : Narrowed) : Prop where
  instruction : narrowed.instruction.Renames table narrowed'.instruction
  stays : narrowed.instruction.isReturn = false
  result : Option.Rel (Operand.Renames table) narrowed.result? narrowed'.result?

theorem Instruction.Renames.narrow {known known' : Known}
    (knownRenames : known.Renames table known') (faithful : table.Faithful)
    {instruction renamed : Instruction Value}
    (renames : instruction.Renames table renamed) (stays : instruction.isReturn = false) :
    (instruction.narrow known).Renames table (renamed.narrow known') := by
  have narrowedRenames : (instruction.narrow known).instruction.Renames table
      (renamed.narrow known').instruction :=
    renames.mapOperands fun _ _ operandRenames => operandRenames.resolve knownRenames faithful
  have narrowedStays : (instruction.narrow known).instruction.isReturn = false := by
    rw [Instruction.narrow, isReturn_mapOperands, stays]
  exact ⟨narrowedRenames, narrowedStays, narrowedRenames.settled narrowedStays faithful⟩

namespace Narrowed.Renames

variable {narrowed narrowed' : Narrowed} (renames : narrowed.Renames table narrowed')
  (faithful : table.Faithful)

include renames faithful

theorem fact :
    Option.Rel (fun told told' => table.vars.get? told.1 = some told'.1 ∧
      told.2.Renames table told'.2) narrowed.fact? narrowed'.fact? := by
  have written := renames.instruction.result renames.stays
  have settled := renames.result
  unfold fact?
  generalize narrowed.instruction.result? = destination at written
  generalize narrowed'.instruction.result? = destination' at written
  generalize narrowed.result? = operand at settled
  generalize narrowed'.result? = operand' at settled
  cases written with
  | none => exact .none
  | some image =>
      cases settled with
      | none => exact .none
      | some operandRenamed =>
          simp only [operandRenamed.mentions_eq faithful image]
          split
          · exact .none
          · exact .some ⟨image, operandRenamed⟩

theorem isRemovable_eq {read read' : List Variable}
    (sameReads : ∀ old new, table.vars.get? old = some new → (new ∈ read' ↔ old ∈ read)) :
    Code.isRemovable read' narrowed' = Code.isRemovable read narrowed := by
  have told := renames.fact faithful
  unfold Code.isRemovable
  generalize narrowed.fact? = fact at told
  generalize narrowed'.fact? = fact' at told
  cases told with
  | none => rfl
  | some image => simp [sameReads _ _ image.1]

theorem leave {known known' : Known} (knownRenames : known.Renames table known') :
    (known.leave narrowed).Renames table (known'.leave narrowed') := by
  have written := renames.instruction.result renames.stays
  have told := renames.fact faithful
  simp only [Known.leave, renames.instruction.transfersControl_eq renames.stays]
  generalize narrowed.instruction.result? = destination at written
  generalize narrowed'.instruction.result? = destination' at written
  generalize narrowed.fact? = fact at told
  generalize narrowed'.fact? = fact' at told
  split
  · exact .empty table
  · cases written with
    | none =>
        cases told with
        | none => exact knownRenames
        | some operandRenamed =>
            exact knownRenames.insert faithful operandRenamed.1 operandRenamed.2
    | some image =>
        cases told with
        | none => exact knownRenames.forget faithful image
        | some operandRenamed =>
            exact (knownRenames.forget faithful image).insert faithful operandRenamed.1
              operandRenamed.2

end Narrowed.Renames

namespace Code

variable {code renamed : Code Value}

theorem narrowFrom_renames (faithful : table.Faithful) (options : FoldOptions)
    {known known' : Known} (knownRenames : known.Renames table known')
    (stays : ∀ instruction ∈ code, instruction.isReturn = false)
    (renames : List.Forall₂ (Instruction.Renames table) code renamed) :
    List.Forall₂ (Narrowed.Renames table) (code.narrowFrom known options)
      (renamed.narrowFrom known' options) := by
  induction renames generalizing known known' with
  | nil => exact .nil
  | cons firstRenames restRenames ih =>
      obtain ⟨firstStays, restStays⟩ := List.forall_mem_cons.mp stays
      have entered := knownRenames.enter options firstRenames.isLabel_eq
      have narrowed := firstRenames.narrow entered faithful firstStays
      exact .cons narrowed (ih (narrowed.leave faithful entered) restStays)

theorem mem_reads_iff_of_renames (faithful : table.Faithful)
    (renames : List.Forall₂ (Instruction.Renames table) code renamed) {old new : Variable}
    (image : table.vars.get? old = some new) : new ∈ reads renamed ↔ old ∈ reads code := by
  simp only [reads, List.mem_flatMap]
  exact exists_mem_iff_of_forall₂ renames fun _ _ _ renames =>
    renames.mem_reads_iff faithful image

theorem fold_renames (faithful : table.Faithful) (options : FoldOptions)
    (stays : ∀ instruction ∈ code, instruction.isReturn = false)
    (renames : List.Forall₂ (Instruction.Renames table) code renamed) :
    List.Forall₂ (Instruction.Renames table) (code.fold options).instructions
        (renamed.fold options).instructions ∧
      (renamed.fold options).removable = (code.fold options).removable := by
  have narrowed := narrowFrom_renames faithful options (.empty table) stays renames
  have instructions : List.Forall₂ (Instruction.Renames table) (code.fold options).instructions
      (renamed.fold options).instructions := by
    simp only [fold, List.forall₂_map_left_iff, List.forall₂_map_right_iff]
    exact narrowed.imp fun _ _ renames => renames.instruction
  refine ⟨instructions, ?_⟩
  have sameMarks : List.Forall₂ Eq (code.fold options).removable
      (renamed.fold options).removable := by
    simp only [fold, List.forall₂_map_left_iff, List.forall₂_map_right_iff]
    refine narrowed.imp fun _ _ renames => Eq.symm (renames.isRemovable_eq faithful ?_)
    exact fun _ _ image => mem_reads_iff_of_renames faithful instructions image
  rw [List.forall₂_eq_eq_eq] at sameMarks
  exact sameMarks.symm

end Code

/-! ## The names that matter -/

/-- The table without the variables that are not among the given ones. -/
def RenamingTable.restrict (table : RenamingTable) (names : List Variable) : RenamingTable :=
  { table with vars := table.vars.filter fun old _ => names.contains old }

theorem RenamingTable.get?_restrict_eq_some_iff {names : List Variable} {old new : Variable} :
    (table.restrict names).vars.get? old = some new ↔
      table.vars.get? old = some new ∧ old ∈ names := by
  rw [restrict, Bindings.get?_filter_eq_some_iff, List.contains_iff_mem]

theorem RenamingTable.renameVariable_restrict {names : List Variable} {old : Variable}
    (member : old ∈ names) :
    (table.restrict names).renameVariable old = table.renameVariable old := by
  have same : (table.restrict names).vars.get? old = table.vars.get? old := by
    refine Option.ext fun new => ?_
    rw [get?_restrict_eq_some_iff, and_iff_left member]
  rw [renameVariable, renameVariable, same]

theorem Operand.rename_restrict {names : List Variable} {operand : Operand Value}
    (within : ∀ name ∈ operand.vars, name ∈ names) :
    operand.rename (table.restrict names) = operand.rename table := by
  induction operand using Operand.induction with
  | var name =>
      rw [rename, rename, RenamingTable.renameVariable_restrict (within name (by simp [vars]))]
  | constant value => rfl
  | array elements ih =>
      rw [rename, rename, renameAll_eq_mapM, renameAll_eq_mapM]
      have same : elements.mapM (rename (table.restrict names)) = elements.mapM (rename table) :=
        Except.mapM_congr fun element member => ih element member fun name occurs =>
          within name (by simpa [vars] using ⟨element, member, occurs⟩)
      rw [same]
  | label name => rfl
  | self => rfl

theorem Instruction.rename_restrict {names : List Variable} {instruction : Instruction Value}
    (within : ∀ name ∈ instruction.vars, name ∈ names) :
    instruction.rename (table.restrict names) = instruction.rename table := by
  have operandKept : ∀ operand ∈ instruction.operands,
      operand.rename (table.restrict names) = operand.rename table :=
    fun operand member => Operand.rename_restrict fun name occurs =>
      within name (mem_vars_iff.mpr (.inr ⟨operand, member, occurs⟩))
  have resultKept : ∀ name ∈ instruction.result?,
      (table.restrict names).renameVariable name = table.renameVariable name :=
    fun name written =>
      RenamingTable.renameVariable_restrict (within name (mem_vars_iff.mpr (.inl written)))
  cases instruction with
  | copy result source =>
      rw [rename, rename, resultKept result rfl, operandKept source List.mem_cons_self]
  | getArray result array index takeRest =>
      rw [rename, rename, resultKept result rfl, operandKept array List.mem_cons_self]
  | label | jump => rfl
  | beq first second target =>
      rw [rename, rename, operandKept first List.mem_cons_self,
        operandKept second (List.mem_cons_of_mem _ List.mem_cons_self)]
      rfl
  | ret value =>
      rw [rename, rename, operandKept value List.mem_cons_self]
      rfl

/-- A table by which code can be moved into another scope: all its names have images, different
variables different ones, and the receiver becomes the receiver or a variable that is no image. -/
structure RenamingTable.Embeds (table : RenamingTable) (code : Code Value) : Prop where
  renames_var : ∀ name ∈ code.flatMap Instruction.vars, (table.vars.get? name).isSome
  renames_label : ∀ name ∈ code.flatMap Instruction.labels, (table.labels.get? name).isSome
  injective : ∀ first ∈ code.flatMap Instruction.vars, ∀ second ∈ code.flatMap Instruction.vars,
    table.vars.get? first = table.vars.get? second → first = second
  receiver : table.receiver = .self ∨ ∃ name, table.receiver = .var name ∧
    ∀ old ∈ code.flatMap Instruction.vars, table.vars.get? old ≠ some name

namespace RenamingTable.Embeds

variable {code : Code Value}

theorem faithful_restrict (embeds : table.Embeds code) :
    (table.restrict (code.flatMap Instruction.vars)).Faithful where
  unique := by
    intro first second image firstImage secondImage
    obtain ⟨firstImage, firstMember⟩ := get?_restrict_eq_some_iff.mp firstImage
    obtain ⟨secondImage, secondMember⟩ := get?_restrict_eq_some_iff.mp secondImage
    exact embeds.injective first firstMember second secondMember
      (firstImage.trans secondImage.symm)
  receiver := by
    rcases embeds.receiver with same | ⟨name, same, apart⟩
    · exact .inl same
    · refine .inr ⟨name, same, fun old image => ?_⟩
      obtain ⟨image, member⟩ := get?_restrict_eq_some_iff.mp image
      exact apart old member image

theorem exists_renamed (embeds : table.Embeds code) :
    ∃ renamed, code.mapM (Instruction.rename table) = .ok renamed := by
  refine Except.exists_mapM fun instruction member => Instruction.exists_rename ?_ ?_
  · intro name occurs
    exact embeds.renames_var name (List.mem_flatMap.mpr ⟨instruction, member, occurs⟩)
  · intro name occurs
    exact embeds.renames_label name (List.mem_flatMap.mpr ⟨instruction, member, occurs⟩)

end RenamingTable.Embeds

namespace Code

theorem mapM_rename_restrict {code : Code Value} {names : List Variable}
    (within : ∀ instruction ∈ code, ∀ name ∈ instruction.vars, name ∈ names) :
    code.mapM (Instruction.rename (table.restrict names)) =
      code.mapM (Instruction.rename table) :=
  Except.mapM_congr fun instruction member =>
    Instruction.rename_restrict (within instruction member)

/-- Folding commutes with renaming. Code without returns can be renamed by a table that covers its
names, keeps its variables apart and keeps the receiver apart from them. Folded then, it is what
becomes of the folded code when that is renamed, which can be done too, and the same instructions
are removable. -/
theorem fold_commutes_with_renaming {code : Code Value} (embeds : table.Embeds code)
    (stays : ∀ instruction ∈ code, instruction.isReturn = false) (options : FoldOptions) :
    ∃ renamed : Code Value, code.mapM (Instruction.rename table) = .ok renamed ∧
      (code.fold options).instructions.mapM (Instruction.rename table) =
        .ok (renamed.fold options).instructions ∧
      (renamed.fold options).removable = (code.fold options).removable := by
  obtain ⟨renamed, codeRenamed⟩ := embeds.exists_renamed
  have codeWithin : ∀ instruction ∈ code,
      instruction.Within (· ∈ code.flatMap Instruction.vars) fun _ => True := by
    intro instruction member
    exact ⟨fun name occurs => List.mem_flatMap.mpr ⟨instruction, member, occurs⟩,
      fun _ _ => trivial⟩
  -- Folding makes no names up, so only the images of the code's own variables matter.
  have foldedWithin := within_fold options codeWithin
  have renames : List.Forall₂
      (Instruction.Renames (table.restrict (code.flatMap Instruction.vars))) code renamed := by
    rw [← mapM_rename_restrict fun instruction member => (codeWithin instruction member).vars,
      Except.mapM_eq_ok_iff_forall₂] at codeRenamed
    simpa only [Instruction.rename_eq_ok_iff] using codeRenamed
  obtain ⟨instructions, removable⟩ := fold_renames embeds.faithful_restrict options stays renames
  refine ⟨renamed, codeRenamed, ?_, removable⟩
  rw [← mapM_rename_restrict fun instruction member => (foldedWithin instruction member).vars,
    Except.mapM_eq_ok_iff_forall₂]
  simpa only [Instruction.rename_eq_ok_iff] using instructions

/-- What is known of `x` holds the receiver, a label and a variable that is written later. -/
def rewrittenPair : Code Value := [
  .copy ⟨"x"⟩ (.array [.self, .array [.var ⟨"y"⟩, .label ⟨"end"⟩]]),
  .getArray ⟨"z"⟩ (.var ⟨"x"⟩) 1 false,
  .getArray ⟨"w"⟩ (.var ⟨"z"⟩) 1 true,
  .getArray ⟨"y"⟩ .self 0 false,
  .beq (.var ⟨"x"⟩) (.var ⟨"z"⟩) ⟨"end"⟩,
  .label ⟨"end"⟩]

/-- The new names are old names of other variables, and so is the name of the receiver. -/
def exchange : RenamingTable :=
  let empty := RenamingTable.ofCall (.var ⟨"z"⟩) ⟨"out"⟩ ⟨"exit"⟩
  let first := (empty.addVariable ⟨"x"⟩ ⟨"y"⟩).addVariable ⟨"y"⟩ ⟨"x"⟩
  ((first.addVariable ⟨"z"⟩ ⟨"u"⟩).addVariable ⟨"w"⟩ ⟨"w"⟩).addLabel ⟨"end"⟩ ⟨"exit"⟩

theorem rewrittenPair_folds_alike : exchange.Embeds rewrittenPair ∧
    (∀ instruction ∈ rewrittenPair, instruction.isReturn = false) ∧
    ∃ renamed : Code Value, rewrittenPair.mapM (Instruction.rename exchange) = .ok renamed ∧
      (rewrittenPair.fold {}).instructions.mapM (Instruction.rename exchange) =
        .ok (renamed.fold {}).instructions ∧
      (renamed.fold {}).instructions[1]? = some
        (.getArray ⟨"u"⟩ (.array [.var ⟨"z"⟩, .array [.var ⟨"x"⟩, .label ⟨"exit"⟩]]) 1 false) ∧
      (renamed.fold {}).removable = [false, false, true, false, false, false] := by
  have embeds : exchange.Embeds rewrittenPair :=
    ⟨by decide, by decide, by decide, .inr ⟨⟨"z"⟩, rfl, by decide⟩⟩
  have stays : ∀ instruction ∈ rewrittenPair, instruction.isReturn = false := by decide
  obtain ⟨renamed, codeRenamed, foldedRenamed, removable⟩ :=
    fold_commutes_with_renaming embeds stays {}
  refine ⟨embeds, stays, renamed, codeRenamed, foldedRenamed, ?_, removable.trans (by decide)⟩
  cases codeRenamed
  decide

end Code

end LinearIR
