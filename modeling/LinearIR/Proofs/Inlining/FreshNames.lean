import Mathlib.Data.List.Intervals
import Mathlib.Data.List.Nodup
import LinearIR.Inlining

/-!
# Fresh names

A name that carries a number tells the number, so names with different numbers differ. A table
takes consecutive numbers of the caller: one for every name of the callee, one for the exit, and
one for the call result if no variable is given for it.
-/

set_option autoImplicit false

namespace LinearIR

private theorem toString_injective {number number' : Nat}
    (same : toString number = toString number') : number = number' := by
  have sameDigits : Nat.toDigits 10 number = Nat.toDigits 10 number' := by
    simpa only [Nat.toString_eq_repr, Nat.toList_repr] using congrArg String.toList same
  calc
    number = Nat.ofDigitChars 10 (Nat.toDigits 10 number) 0 :=
      Nat.ofDigitChars_ten_toDigits.symm
    _ = Nat.ofDigitChars 10 (Nat.toDigits 10 number') 0 := by rw [sameDigits]
    _ = number' := Nat.ofDigitChars_ten_toDigits

theorem Variable.temporary_injective : Function.Injective Variable.temporary := by
  intro number number' same
  have sameName := congrArg Variable.name same
  exact toString_injective ((String.append_right_inj "%v_").mp sameName)

theorem Label.numbered_injective : Function.Injective Label.numbered := by
  intro number number' same
  have sameName := congrArg Label.name same
  exact toString_injective ((String.append_right_inj "_LBL_").mp sameName)

namespace Bindings

variable {κ ν : Type}

def values (bindings : Bindings κ ν) : List ν :=
  bindings.entries.map Prod.snd

variable [DecidableEq κ]

theorem mem_values_iff {bindings : Bindings κ ν} {value : ν} :
    value ∈ bindings.values ↔ ∃ key, bindings.get? key = some value := by
  simp only [values, List.mem_map, get?_eq_some_iff]
  constructor
  · intro bound
    obtain ⟨entry, member, same⟩ := bound
    subst same
    exact ⟨entry.1, member⟩
  · intro bound
    obtain ⟨key, member⟩ := bound
    exact ⟨(key, value), member, rfl⟩

theorem key_unique {bindings : Bindings κ ν} (distinct : bindings.values.Nodup) {first second : κ}
    {value : ν} (firstBound : bindings.get? first = some value)
    (secondBound : bindings.get? second = some value) : first = second := by
  have same := List.inj_on_of_nodup_map distinct (get?_eq_some_iff.mp firstBound)
    (get?_eq_some_iff.mp secondBound) rfl
  exact congrArg Prod.fst same

theorem values_insert_of_unbound {bindings : Bindings κ ν} {key : κ}
    (unbound : bindings.get? key = none) (value : ν) :
    (bindings.insert key value).values = value :: bindings.values := by
  have kept : (bindings.erase key).entries = bindings.entries := by
    refine List.filter_eq_self.mpr fun entry member => decide_eq_true fun same => ?_
    have bound : bindings.get? key = some entry.2 := get?_eq_some_iff.mpr (same ▸ member)
    rw [unbound] at bound
    cases bound
  simp only [values, insert, kept, List.map_cons]

/-- Binds each key that has no value yet to the next value that `make` numbers. -/
def bindFresh (make : Nat → ν) (bindings : Bindings κ ν) (next : Nat) :
    List κ → Bindings κ ν × Nat
  | [] => (bindings, next)
  | key :: rest =>
    if bindings.contains key then bindings.bindFresh make next rest
    else (bindings.insert key (make next)).bindFresh make (next + 1) rest

variable (make : Nat → ν)

theorem le_bindFresh (bindings : Bindings κ ν) (next : Nat) (keys : List κ) :
    next ≤ (bindings.bindFresh make next keys).2 := by
  induction keys generalizing bindings next with
  | nil => exact Nat.le_refl next
  | cons key rest ih =>
      rw [bindFresh]
      split
      · exact ih bindings next
      · exact Nat.le_of_succ_le (ih (bindings.insert key (make next)) (next + 1))

/-- The values that are added carry consecutive numbers, the lowest first. -/
theorem reverse_values_bindFresh (bindings : Bindings κ ν) (next : Nat) (keys : List κ) :
    (bindings.bindFresh make next keys).1.values.reverse =
      bindings.values.reverse ++
        (List.Ico next (bindings.bindFresh make next keys).2).map make := by
  induction keys generalizing bindings next with
  | nil => simp [bindFresh]
  | cons key rest ih =>
      rw [bindFresh]
      split
      · exact ih bindings next
      · next absent =>
        have unbound : bindings.get? key = none := by
          simpa [contains] using absent
        have grown := le_bindFresh make (bindings.insert key (make next)) (next + 1) rest
        rw [ih, values_insert_of_unbound unbound, List.Ico.eq_cons (Nat.lt_of_succ_le grown)]
        simp

theorem isSome_get?_bindFresh (bindings : Bindings κ ν) (next : Nat) (keys : List κ) (key : κ) :
    ((bindings.bindFresh make next keys).1.get? key).isSome ↔
      (bindings.get? key).isSome ∨ key ∈ keys := by
  induction keys generalizing bindings next with
  | nil => simp [bindFresh]
  | cons first rest ih =>
      rw [bindFresh, List.mem_cons]
      split
      · next bound =>
        rw [ih]
        constructor
        · intro known
          rcases known with already | later
          · exact .inl already
          · exact .inr (.inr later)
        · intro known
          rcases known with already | here | later
          · exact .inl already
          · exact .inl (here ▸ bound)
          · exact .inr later
      · rw [ih, get?_insert]
        by_cases same : key = first <;> simp [same]

theorem taken_bindFresh (next : Nat) (keys : List κ) :
    (bindFresh make ∅ next keys).1.values.reverse =
      (List.Ico next (bindFresh make ∅ next keys).2).map make :=
  reverse_values_bindFresh make ∅ next keys

theorem cons_taken_bindFresh (next : Nat) (keys : List κ) :
    make next :: (bindFresh make ∅ (next + 1) keys).1.values.reverse =
      (List.Ico next (bindFresh make ∅ (next + 1) keys).2).map make := by
  rw [List.Ico.eq_cons (Nat.lt_of_succ_le (le_bindFresh make ∅ (next + 1) keys)), List.map_cons,
    taken_bindFresh]

theorem isSome_get?_bindFresh_empty (next : Nat) (keys : List κ) (key : κ) :
    ((bindFresh make ∅ next keys).1.get? key).isSome ↔ key ∈ keys := by
  have unbound : ((∅ : Bindings κ ν).get? key).isSome = false := rfl
  simp [isSome_get?_bindFresh, unbound]

end Bindings

namespace Scope

theorem allocateVariables_eq (caller : Scope) (table : RenamingTable) (names : List Variable) :
    caller.allocateVariables table names =
      let fresh := table.vars.bindFresh .temporary caller.nextTemporary names
      ({ table with vars := fresh.1 }, { caller with nextTemporary := fresh.2 }) := by
  induction names generalizing caller table with
  | nil => rfl
  | cons name rest ih =>
      rw [allocateVariables, Bindings.bindFresh]
      split
      · exact ih caller table
      · exact ih caller.newTemporary.2 (table.addVariable name caller.newTemporary.1)

theorem allocateLabels_eq (caller : Scope) (table : RenamingTable) (names : List Label) :
    caller.allocateLabels table names =
      let fresh := table.labels.bindFresh .numbered caller.nextLabel names
      ({ table with labels := fresh.1 }, { caller with nextLabel := fresh.2 }) := by
  induction names generalizing caller table with
  | nil => rfl
  | cons name rest ih =>
      rw [allocateLabels, Bindings.bindFresh]
      split
      · exact ih caller table
      · exact ih caller.newLabel.2 (table.addLabel name caller.newLabel.1)

end Scope

/-- The variable is a temporary that the scope has still to hand out. -/
def Scope.Unissued (scope : Scope) (name : Variable) : Prop :=
  ∃ number, scope.nextTemporary ≤ number ∧ .temporary number = name

/-- A scope issues names that start with a percent sign, and no other ones. -/
theorem Scope.not_unissued_of_head? (scope : Scope) {name : Variable}
    (unreserved : name.name.toList.head? ≠ some '%') : ¬ scope.Unissued name := by
  intro unissued
  obtain ⟨number, -, same⟩ := unissued
  subst same
  exact unreserved (by simp [Variable.temporary])

namespace RenamingTable

/-- The variables that the table takes from the caller. A given result variable is not taken. -/
def takenVars (table : RenamingTable) (result? : Option Variable) : List Variable :=
  match result? with
  | some _ => table.vars.values.reverse
  | none => table.callResult :: table.vars.values.reverse

def takenLabels (table : RenamingTable) : List Label :=
  table.exitLabel :: table.labels.values.reverse

/-- A table for a call, and what the caller's counters say about the names it takes. -/
structure Serves (table : RenamingTable) (caller callee after : Scope) (receiver : Operand Value)
    (result? : Option Variable) : Prop where
  receiver_eq : table.receiver = receiver
  callResult_eq : table.callResult = result?.getD (.temporary caller.nextTemporary)
  renames_var : ∀ name, (table.vars.get? name).isSome ↔ name ∈ callee.vars
  renames_label : ∀ name, (table.labels.get? name).isSome ↔ name ∈ callee.labels
  temporaries_le : caller.nextTemporary ≤ after.nextTemporary
  labels_le : caller.nextLabel ≤ after.nextLabel
  takenVars_eq : table.takenVars result? =
    (List.Ico caller.nextTemporary after.nextTemporary).map .temporary
  takenLabels_eq : table.takenLabels =
    (List.Ico caller.nextLabel after.nextLabel).map .numbered

end RenamingTable

theorem Scope.renamingTable_serves (caller callee : Scope) (receiver : Operand Value)
    (result? : Option Variable) :
    (caller.renamingTable callee receiver result?).1.Serves caller callee
      (caller.renamingTable callee receiver result?).2 receiver result? := by
  have labelsGrow := Bindings.le_bindFresh Label.numbered ∅ (caller.nextLabel + 1) callee.labels
  simp only [renamingTable, allocateVariables_eq, allocateLabels_eq]
  cases result? with
  | some result =>
      exact {
        receiver_eq := rfl
        callResult_eq := rfl
        renames_var := Bindings.isSome_get?_bindFresh_empty _ _ _
        renames_label := Bindings.isSome_get?_bindFresh_empty _ _ _
        temporaries_le := Bindings.le_bindFresh _ _ _ _
        labels_le := Nat.le_of_succ_le labelsGrow
        takenVars_eq := Bindings.taken_bindFresh _ _ _
        takenLabels_eq :=
          Bindings.cons_taken_bindFresh Label.numbered caller.nextLabel callee.labels }
  | none =>
      exact {
        receiver_eq := rfl
        callResult_eq := rfl
        renames_var := Bindings.isSome_get?_bindFresh_empty _ _ _
        renames_label := Bindings.isSome_get?_bindFresh_empty _ _ _
        temporaries_le := Nat.le_of_succ_le (Bindings.le_bindFresh _ _ _ _)
        labels_le := Nat.le_of_succ_le labelsGrow
        takenVars_eq :=
          Bindings.cons_taken_bindFresh Variable.temporary caller.nextTemporary callee.vars
        takenLabels_eq :=
          Bindings.cons_taken_bindFresh Label.numbered caller.nextLabel callee.labels }

theorem Scope.serves_of_renamingTable_eq {table : RenamingTable} {caller callee after : Scope}
    {receiver : Operand Value} {result? : Option Variable}
    (built : caller.renamingTable callee receiver result? = (table, after)) :
    table.Serves caller callee after receiver result? := by
  have serves := caller.renamingTable_serves callee receiver result?
  rwa [built] at serves

theorem RenamingTable.mem_takenVars {table : RenamingTable} {old new : Variable}
    (renamed : table.vars.get? old = some new) (result? : Option Variable) :
    new ∈ table.takenVars result? := by
  have value : new ∈ table.vars.values.reverse :=
    List.mem_reverse.mpr (Bindings.mem_values_iff.mpr ⟨old, renamed⟩)
  cases result? with
  | some result => exact value
  | none => exact List.mem_cons_of_mem _ value

namespace RenamingTable.Serves

variable {table : RenamingTable} {caller callee after : Scope} {receiver : Operand Value}
  {result? : Option Variable}

theorem mem_takenVars_iff (serves : table.Serves caller callee after receiver result?)
    {name : Variable} :
    name ∈ table.takenVars result? ↔
      ∃ number, caller.nextTemporary ≤ number ∧ number < after.nextTemporary ∧
        .temporary number = name := by
  simp [serves.takenVars_eq, and_assoc]

/-- The images are names that the table's call issues. -/
theorem issues (serves : table.Serves caller callee after receiver result?) {old new : Variable}
    (renamed : table.vars.get? old = some new) : caller.Unissued new ∧ ¬ after.Unissued new := by
  obtain ⟨number, started, ended, rfl⟩ :=
    serves.mem_takenVars_iff.mp (mem_takenVars renamed result?)
  refine ⟨⟨number, started, rfl⟩, ?_⟩
  intro unissued
  obtain ⟨number', notYet, same⟩ := unissued
  have sameNumber := Variable.temporary_injective same
  omega

theorem nodup_takenVars (serves : table.Serves caller callee after receiver result?) :
    (table.takenVars result?).Nodup := by
  rw [serves.takenVars_eq]
  exact (List.Ico.nodup _ _).map Variable.temporary_injective

theorem nodup_takenLabels (serves : table.Serves caller callee after receiver result?) :
    table.takenLabels.Nodup := by
  rw [serves.takenLabels_eq]
  exact (List.Ico.nodup _ _).map Label.numbered_injective

theorem var_unique (serves : table.Serves caller callee after receiver result?)
    {first second new : Variable} (firstRenamed : table.vars.get? first = some new)
    (secondRenamed : table.vars.get? second = some new) : first = second := by
  have distinct := serves.nodup_takenVars
  refine Bindings.key_unique (List.nodup_reverse.mp ?_) firstRenamed secondRenamed
  cases result? with
  | some result => exact distinct
  | none => exact distinct.of_cons

theorem label_unique (serves : table.Serves caller callee after receiver result?)
    {first second new : Label} (firstRenamed : table.labels.get? first = some new)
    (secondRenamed : table.labels.get? second = some new) : first = second :=
  Bindings.key_unique (List.nodup_reverse.mp serves.nodup_takenLabels.of_cons) firstRenamed
    secondRenamed

theorem renamed_ne_exitLabel (serves : table.Serves caller callee after receiver result?)
    (old : Label) : table.labels.get? old ≠ some table.exitLabel := by
  intro renamed
  refine (List.nodup_cons.mp serves.nodup_takenLabels).1 (List.mem_reverse.mpr ?_)
  exact Bindings.mem_values_iff.mpr ⟨old, renamed⟩

theorem renamed_ne_callResult (serves : table.Serves caller callee after receiver none)
    (old : Variable) : table.vars.get? old ≠ some table.callResult := by
  intro renamed
  refine (List.nodup_cons.mp serves.nodup_takenVars).1 (List.mem_reverse.mpr ?_)
  exact Bindings.mem_values_iff.mpr ⟨old, renamed⟩

end RenamingTable.Serves

end LinearIR
