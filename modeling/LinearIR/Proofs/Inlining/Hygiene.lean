import LinearIR.Proofs.Inlining.Fragment

/-!
# Hygiene of inlining

A caller is asked for temporaries, for labels and for the fragments of calls, in any order. All
names it hands out carry consecutive numbers, so no two requests get a name in common, and a
fragment contains no other names than those of its call.
-/

set_option autoImplicit false

namespace LinearIR

structure Call where
  callee : Scope
  receiver : Operand Value
  arguments : List (Operand Value)
  result? : Option Variable

inductive NameRequest where
  | temporary
  | label
  | call (call : Call)

/-- The answer to a request. A call is answered by its fragment, which was renamed by the
table. -/
inductive Allocation where
  | temporary (name : Variable)
  | label (name : Label)
  | call (call : Call) (table : RenamingTable) (fragment : Code Value)

def Allocation.vars : Allocation → List Variable
  | .temporary name => [name]
  | .label _ => []
  | .call served table _ => table.takenVars served.result?

def Allocation.labels : Allocation → List Label
  | .temporary _ => []
  | .label name => [name]
  | .call _ table _ => table.takenLabels

namespace Scope

def allocate (scope : Scope) : NameRequest → Except InlineError (Allocation × Scope)
  | .temporary => return (.temporary scope.newTemporary.1, scope.newTemporary.2)
  | .label => return (.label scope.newLabel.1, scope.newLabel.2)
  | .call call => do
    let table := (scope.renamingTable call.callee call.receiver call.result?).1
    let (fragment, after) ← scope.inline call.callee call.receiver call.arguments call.result?
    return (.call call table fragment, after)

def allocateAll (scope : Scope) : List NameRequest → Except InlineError (List Allocation × Scope)
  | [] => return ([], scope)
  | request :: rest => do
    let (allocation, after) ← scope.allocate request
    let (others, final) ← after.allocateAll rest
    return (allocation :: others, final)

end Scope

namespace Call

/-- The table gives every name of the callee a name of its own, which is neither the exit label
nor a call result that the table takes. -/
structure Separates (call : Call) (table : RenamingTable) : Prop where
  renames_var : ∀ name ∈ call.callee.vars, ∃ image, table.vars.get? name = some image
  renames_label : ∀ name ∈ call.callee.labels, ∃ image, table.labels.get? name = some image
  var_unique : ∀ first second image, table.vars.get? first = some image →
    table.vars.get? second = some image → first = second
  label_unique : ∀ first second image, table.labels.get? first = some image →
    table.labels.get? second = some image → first = second
  ne_exitLabel : ∀ name, table.labels.get? name ≠ some table.exitLabel
  ne_callResult : call.result? = none → ∀ name, table.vars.get? name ≠ some table.callResult

def AllowsVar (call : Call) (table : RenamingTable) (name : Variable) : Prop :=
  (∃ old ∈ call.callee.vars, table.vars.get? old = some name) ∨ name = table.callResult ∨
    ∃ operand ∈ call.receiver :: call.arguments, name ∈ operand.vars

def AllowsLabel (call : Call) (table : RenamingTable) (name : Label) : Prop :=
  (∃ old ∈ call.callee.labels, table.labels.get? old = some name) ∨ name = table.exitLabel ∨
    ∃ operand ∈ call.receiver :: call.arguments, name ∈ operand.labels

/-- The fragment contains no name from elsewhere, and it does not return. -/
structure Confines (call : Call) (table : RenamingTable) (fragment : Code Value) : Prop where
  vars : ∀ instruction ∈ fragment, ∀ name ∈ instruction.vars, call.AllowsVar table name
  labels : ∀ instruction ∈ fragment, ∀ name ∈ instruction.labels, call.AllowsLabel table name
  stays : ∀ instruction ∈ fragment, instruction.isReturn = false

variable {call : Call} {table : RenamingTable} {caller after : Scope}

theorem separates_of_serves
    (serves : table.Serves caller call.callee after call.receiver call.result?) :
    call.Separates table where
  renames_var name member := Option.isSome_iff_exists.mp ((serves.renames_var name).mpr member)
  renames_label name member := Option.isSome_iff_exists.mp ((serves.renames_label name).mpr member)
  var_unique _ _ _ := serves.var_unique
  label_unique _ _ _ := serves.label_unique
  ne_exitLabel := serves.renamed_ne_exitLabel
  ne_callResult taken name := by
    rw [taken] at serves
    exact serves.renamed_ne_callResult name

theorem within_of_serves
    (serves : table.Serves caller call.callee after call.receiver call.result?) :
    table.Within (call.AllowsVar table) (call.AllowsLabel table) where
  vars old _ renamed := .inl ⟨old, (serves.renames_var old).mp (by simp [renamed]), renamed⟩
  labels old _ renamed := .inl ⟨old, (serves.renames_label old).mp (by simp [renamed]), renamed⟩
  receiver := by
    rw [serves.receiver_eq]
    constructor
    · exact fun name occurs => .inr (.inr ⟨call.receiver, List.mem_cons_self, occurs⟩)
    · exact fun name occurs => .inr (.inr ⟨call.receiver, List.mem_cons_self, occurs⟩)
  callResult := .inr (.inl rfl)
  exitLabel := .inr (.inl rfl)

theorem confines_of_emits
    (serves : table.Serves caller call.callee after call.receiver call.result?)
    {fragment : Code Value}
    (emitted : ∀ instruction ∈ fragment, table.Emits call.callee call.arguments instruction) :
    call.Confines table fragment := by
  have argumentsWithin : ∀ argument ∈ call.arguments,
      argument.Within (call.AllowsVar table) (call.AllowsLabel table) := by
    intro argument given
    constructor
    · exact fun name occurs => .inr (.inr ⟨argument, List.mem_cons_of_mem _ given, occurs⟩)
    · exact fun name occurs => .inr (.inr ⟨argument, List.mem_cons_of_mem _ given, occurs⟩)
  have within : ∀ instruction ∈ fragment,
      instruction.Within (call.AllowsVar table) (call.AllowsLabel table) := by
    intro instruction member
    exact (emitted instruction member).within (within_of_serves serves) argumentsWithin
  exact {
    vars := fun instruction member => (within instruction member).vars
    labels := fun instruction member => (within instruction member).labels
    stays := fun instruction member => (emitted instruction member).isReturn_eq_false }

end Call

namespace Scope

/-- What requests take from a scope: the names with all numbers up to the scope's next ones. -/
structure Takes (before after : Scope) (vars : List Variable) (labels : List Label) : Prop where
  temporaries_le : before.nextTemporary ≤ after.nextTemporary
  labels_le : before.nextLabel ≤ after.nextLabel
  vars_eq : vars = (List.Ico before.nextTemporary after.nextTemporary).map .temporary
  labels_eq : labels = (List.Ico before.nextLabel after.nextLabel).map .numbered

theorem Takes.refl (scope : Scope) : scope.Takes scope [] [] where
  temporaries_le := Nat.le_refl _
  labels_le := Nat.le_refl _
  vars_eq := by simp
  labels_eq := by simp

theorem Takes.trans {before middle after : Scope} {vars vars' : List Variable}
    {labels labels' : List Label} (first : before.Takes middle vars labels)
    (second : middle.Takes after vars' labels') :
    before.Takes after (vars ++ vars') (labels ++ labels') where
  temporaries_le := Nat.le_trans first.temporaries_le second.temporaries_le
  labels_le := Nat.le_trans first.labels_le second.labels_le
  vars_eq := by
    rw [first.vars_eq, second.vars_eq, ← List.map_append,
      List.Ico.append_consecutive first.temporaries_le second.temporaries_le]
  labels_eq := by
    rw [first.labels_eq, second.labels_eq, ← List.map_append,
      List.Ico.append_consecutive first.labels_le second.labels_le]

variable {scope after : Scope}

theorem takes_of_allocate {request : NameRequest} {allocation : Allocation}
    (allocated : scope.allocate request = .ok (allocation, after)) :
    scope.Takes after allocation.vars allocation.labels := by
  cases request with
  | temporary =>
      cases allocated
      constructor <;> simp [newTemporary, Allocation.vars, Allocation.labels]
  | label =>
      cases allocated
      constructor <;> simp [newLabel, Allocation.vars, Allocation.labels]
  | call call =>
      obtain ⟨⟨fragment, final⟩, inlined, same⟩ := Except.exists_ok_of_bind allocated
      cases same
      obtain ⟨table, passed, body, built, -⟩ := inline_eq_ok_iff.mp inlined
      have serves := serves_of_renamingTable_eq built
      simp only [Allocation.vars, Allocation.labels, built]
      exact ⟨serves.temporaries_le, serves.labels_le, serves.takenVars_eq, serves.takenLabels_eq⟩

theorem takes_of_allocateAll {requests : List NameRequest} {allocations : List Allocation}
    (allocated : scope.allocateAll requests = .ok (allocations, after)) :
    scope.Takes after (allocations.flatMap Allocation.vars)
      (allocations.flatMap Allocation.labels) := by
  induction requests generalizing scope allocations with
  | nil =>
      cases allocated
      exact .refl _
  | cons request rest ih =>
      obtain ⟨⟨allocation, middle⟩, first, allocated⟩ := Except.exists_ok_of_bind allocated
      obtain ⟨⟨others, final⟩, later, same⟩ := Except.exists_ok_of_bind allocated
      cases same
      exact (takes_of_allocate first).trans (ih later)

/-- Requests succeed if every call passes as many arguments as its callee takes. -/
theorem exists_allocateAll (scope : Scope) (requests : List NameRequest)
    (sameLength : ∀ call, NameRequest.call call ∈ requests →
      call.arguments.length = call.callee.params.length) :
    ∃ allocations final, scope.allocateAll requests = .ok (allocations, final) := by
  induction requests generalizing scope with
  | nil => exact ⟨[], scope, rfl⟩
  | cons request rest ih =>
      obtain ⟨allocation, middle, first⟩ : ∃ allocation middle,
          scope.allocate request = .ok (allocation, middle) := by
        cases request with
        | temporary | label => exact ⟨_, _, rfl⟩
        | call call =>
            obtain ⟨fragment, middle, inlined⟩ := scope.exists_inline call.callee call.receiver
              call.result? (sameLength call List.mem_cons_self)
            exact ⟨_, middle, by simp only [allocate, inlined, bind, Except.bind]; rfl⟩
      have restLength : ∀ call, NameRequest.call call ∈ rest →
          call.arguments.length = call.callee.params.length := by
        intro call member
        exact sameLength call (List.mem_cons_of_mem _ member)
      obtain ⟨others, final, later⟩ := ih middle restLength
      exact ⟨allocation :: others, final, by
        simp only [allocateAll, first, later, bind, Except.bind]; rfl⟩

theorem hygienic_of_allocate {request : NameRequest} {call : Call} {table : RenamingTable}
    {fragment : Code Value}
    (allocated : scope.allocate request = .ok (.call call table fragment, after)) :
    call.Separates table ∧ call.Confines table fragment := by
  cases request with
  | temporary | label => cases allocated
  | call called =>
      obtain ⟨⟨inlinedFragment, final⟩, inlined, same⟩ := Except.exists_ok_of_bind allocated
      cases same
      obtain ⟨table, built, emitted⟩ := emits_of_inline inlined
      have serves := serves_of_renamingTable_eq built
      rw [built]
      exact ⟨Call.separates_of_serves serves, Call.confines_of_emits serves emitted⟩

/-- Inlining is hygienic along every sequence of requests that succeed. Each call renames the
names of its callee apart from each other, from the exit label and from a call result it takes;
no two requests are answered by a common name; and a fragment contains images, the call result,
the exit label and what occurs in the arguments or the receiver, but no return. -/
theorem allocations_hygienic (scope : Scope) (requests : List NameRequest)
    (allocations : List Allocation) (final : Scope)
    (allocated : scope.allocateAll requests = .ok (allocations, final)) :
    (∀ call table fragment, Allocation.call call table fragment ∈ allocations →
      call.Separates table ∧ call.Confines table fragment) ∧
    allocations.Pairwise fun first second =>
      first.vars.Disjoint second.vars ∧ first.labels.Disjoint second.labels := by
  constructor
  · intro call table fragment member
    induction requests generalizing scope allocations with
    | nil => cases allocated; cases member
    | cons request rest ih =>
        obtain ⟨⟨allocation, middle⟩, first, allocated⟩ := Except.exists_ok_of_bind allocated
        obtain ⟨⟨others, final'⟩, later, same⟩ := Except.exists_ok_of_bind allocated
        cases same
        rcases List.mem_cons.mp member with rfl | member
        · exact hygienic_of_allocate first
        · exact ih middle others later member
  · have takes := takes_of_allocateAll allocated
    have distinctVars : (allocations.flatMap Allocation.vars).Nodup := by
      rw [takes.vars_eq]
      exact (List.Ico.nodup _ _).map Variable.temporary_injective
    have distinctLabels : (allocations.flatMap Allocation.labels).Nodup := by
      rw [takes.labels_eq]
      exact (List.Ico.nodup _ _).map Label.numbered_injective
    exact (List.nodup_flatMap.mp distinctVars).2.and (List.nodup_flatMap.mp distinctLabels).2

/-- Returns its parameter beside a label that only an array names. Its names are spelled like those
of a caller. -/
def pairing : Scope where
  name := "pairing"
  params := [⟨"%v_0"⟩]
  instructions := [.copy ⟨"%v_1"⟩ (.array [.var ⟨"%v_0"⟩, .array [.label ⟨"_LBL_0"⟩]]),
    .label ⟨"_LBL_1"⟩, .ret (.var ⟨"%v_1"⟩)]
  nextTemporary := 2
  nextLabel := 2

/-- A call whose result is bound to the variable that its argument reads. -/
def pairingInPlace : Call where
  callee := pairing
  receiver := .self
  arguments := [.var ⟨"x"⟩]
  result? := some ⟨"x"⟩

theorem pairings_hygienic : ∃ allocations final,
    (Scope.create "main" []).allocateAll [.call pairingInPlace, .temporary, .label,
        .call { pairingInPlace with result? := none }] = .ok (allocations, final) ∧
      (∀ call table fragment, Allocation.call call table fragment ∈ allocations →
        call.Separates table ∧ call.Confines table fragment) ∧
      allocations.Pairwise fun first second =>
        first.vars.Disjoint second.vars ∧ first.labels.Disjoint second.labels := by
  obtain ⟨allocations, final, allocated⟩ := exists_allocateAll (Scope.create "main" [])
    [.call pairingInPlace, .temporary, .label, .call { pairingInPlace with result? := none }]
    (by simp [pairingInPlace, pairing])
  exact ⟨allocations, final, allocated, allocations_hygienic _ _ _ _ allocated⟩

end Scope

end LinearIR
