import LinearIR.Proofs.Folding.Names
import LinearIR.Proofs.Inlining.Hygiene

/-!
# Names below the counters

A scope never looks at its code when it hands out a name. What it hands out is fresh because every
numbered name in it, whoever put it there, is below the scope's counter. Clients that write no
other names keep this up, and inlining and folding do so by themselves.
-/

set_option autoImplicit false

namespace LinearIR

namespace Scope

variable {scope before after : Scope}

/-- The temporaries and the numbered labels in the scope are ones that it has handed out. -/
structure WellNamed (scope : Scope) : Prop where
  vars : ∀ number, .temporary number ∈ scope.vars → number < scope.nextTemporary
  labels : ∀ number, .numbered number ∈ scope.labels → number < scope.nextLabel

def AdmitsVar (scope : Scope) (name : Variable) : Prop :=
  ∀ number, name = .temporary number → number < scope.nextTemporary

def AdmitsLabel (scope : Scope) (name : Label) : Prop :=
  ∀ number, name = .numbered number → number < scope.nextLabel

theorem admitsVar_temporary_iff {number : Nat} :
    scope.AdmitsVar (.temporary number) ↔ number < scope.nextTemporary := by
  constructor
  · intro admits
    exact admits number rfl
  · intro issued number' same
    exact Variable.temporary_injective same ▸ issued

theorem admitsLabel_numbered_iff {number : Nat} :
    scope.AdmitsLabel (.numbered number) ↔ number < scope.nextLabel := by
  constructor
  · intro admits
    exact admits number rfl
  · intro issued number' same
    exact Label.numbered_injective same ▸ issued

/-- A variable that does not start with a percent sign may be written into every scope. -/
theorem admitsVar_of_head? {name : Variable} (unreserved : name.name.toList.head? ≠ some '%') :
    scope.AdmitsVar name := by
  rintro number rfl
  exact absurd (by simp [Variable.temporary]) unreserved

theorem wellNamed_iff :
    scope.WellNamed ↔ (∀ name ∈ scope.params, scope.AdmitsVar name) ∧
      ∀ instruction ∈ scope.instructions,
        instruction.Within scope.AdmitsVar scope.AdmitsLabel := by
  constructor
  · intro wellNamed
    refine ⟨?_, fun instruction member => ⟨?_, ?_⟩⟩
    · rintro _ param number rfl
      exact wellNamed.vars number (mem_vars_iff.mpr (.inl param))
    · rintro _ occurs number rfl
      exact wellNamed.vars number (mem_vars_iff.mpr (.inr ⟨instruction, member, occurs⟩))
    · rintro _ occurs number rfl
      exact wellNamed.labels number (mem_labels_iff.mpr ⟨instruction, member, occurs⟩)
  · rintro ⟨params, within⟩
    constructor
    · intro number occurs
      rcases mem_vars_iff.mp occurs with param | ⟨instruction, member, occurs⟩
      · exact params _ param number rfl
      · exact (within instruction member).vars _ occurs number rfl
    · intro number occurs
      obtain ⟨instruction, member, occurs⟩ := mem_labels_iff.mp occurs
      exact (within instruction member).labels _ occurs number rfl

theorem WellNamed.setInstructions (wellNamed : scope.WellNamed) {code : Code Value}
    (within : ∀ instruction ∈ code, instruction.Within scope.AdmitsVar scope.AdmitsLabel) :
    (scope.setInstructions code).WellNamed :=
  wellNamed_iff.mpr ⟨(wellNamed_iff.mp wellNamed).1, within⟩

theorem WellNamed.append (wellNamed : scope.WellNamed) {code : Code Value}
    (within : ∀ instruction ∈ code, instruction.Within scope.AdmitsVar scope.AdmitsLabel) :
    (scope.append code).WellNamed :=
  wellNamed.setInstructions
    (List.forall_mem_append.mpr ⟨(wellNamed_iff.mp wellNamed).2, within⟩)

theorem WellNamed.insertAt (wellNamed : scope.WellNamed) (position : Nat)
    {instruction : Instruction Value}
    (within : instruction.Within scope.AdmitsVar scope.AdmitsLabel) :
    (scope.insertAt position instruction).WellNamed := by
  have kept := (wellNamed_iff.mp wellNamed).2
  refine wellNamed.setInstructions (List.forall_mem_append.mpr ⟨?_, List.forall_mem_cons.mpr ?_⟩)
  · exact fun other member => kept other (List.mem_of_mem_take member)
  · exact ⟨within, fun other member => kept other (List.mem_of_mem_drop member)⟩

theorem WellNamed.fold (wellNamed : scope.WellNamed) (options : FoldOptions) :
    (scope.fold options).2.WellNamed :=
  wellNamed.setInstructions fun instruction live =>
    Code.within_fold options (wellNamed_iff.mp wellNamed).2 instruction
      (Folded.mem_of_mem_live live)

/-! ## Handing out names -/

/-- The scope has handed out names, and nothing else has become of it. -/
structure Advances (before after : Scope) : Prop where
  name_eq : after.name = before.name
  params_eq : after.params = before.params
  instructions_eq : after.instructions = before.instructions
  temporaries_le : before.nextTemporary ≤ after.nextTemporary
  labels_le : before.nextLabel ≤ after.nextLabel

theorem advances_newTemporary (scope : Scope) : scope.Advances scope.newTemporary.2 :=
  ⟨rfl, rfl, rfl, Nat.le_succ _, Nat.le_refl _⟩

theorem advances_newLabel (scope : Scope) : scope.Advances scope.newLabel.2 :=
  ⟨rfl, rfl, rfl, Nat.le_refl _, Nat.le_succ _⟩

theorem advances_renamingTable (caller callee : Scope) (receiver : Operand Value)
    (result? : Option Variable) :
    caller.Advances (caller.renamingTable callee receiver result?).2 := by
  have serves := caller.renamingTable_serves callee receiver result?
  constructor
  · simp only [renamingTable, allocateVariables_eq, allocateLabels_eq]
    cases result? <;> rfl
  · simp only [renamingTable, allocateVariables_eq, allocateLabels_eq]
    cases result? <;> rfl
  · simp only [renamingTable, allocateVariables_eq, allocateLabels_eq]
    cases result? <;> rfl
  · exact serves.temporaries_le
  · exact serves.labels_le

theorem advances_of_renamingTable_eq {caller callee : Scope} {table : RenamingTable}
    {receiver : Operand Value} {result? : Option Variable}
    (built : caller.renamingTable callee receiver result? = (table, after)) :
    caller.Advances after := by
  have advances := caller.advances_renamingTable callee receiver result?
  rwa [built] at advances

theorem Advances.admitsVar (advances : before.Advances after) (name : Variable)
    (admits : before.AdmitsVar name) : after.AdmitsVar name :=
  fun number same => Nat.lt_of_lt_of_le (admits number same) advances.temporaries_le

theorem Advances.admitsLabel (advances : before.Advances after) (name : Label)
    (admits : before.AdmitsLabel name) : after.AdmitsLabel name :=
  fun number same => Nat.lt_of_lt_of_le (admits number same) advances.labels_le

theorem WellNamed.advance (wellNamed : before.WellNamed) (advances : before.Advances after) :
    after.WellNamed := by
  obtain ⟨params, within⟩ := wellNamed_iff.mp wellNamed
  rw [wellNamed_iff, advances.params_eq, advances.instructions_eq]
  constructor
  · exact fun name param => advances.admitsVar name (params name param)
  · exact fun instruction member =>
      (within instruction member).imp advances.admitsVar advances.admitsLabel

end Scope

namespace RenamingTable.Serves

variable {table : RenamingTable} {caller callee after : Scope} {receiver : Operand Value}
  {result? : Option Variable}

theorem mem_takenLabels_iff (serves : table.Serves caller callee after receiver result?)
    {name : Label} :
    name ∈ table.takenLabels ↔
      ∃ number, caller.nextLabel ≤ number ∧ number < after.nextLabel ∧
        .numbered number = name := by
  simp [serves.takenLabels_eq, and_assoc]

theorem admitsVar_of_taken (serves : table.Serves caller callee after receiver result?)
    {name : Variable} (taken : name ∈ table.takenVars result?) : after.AdmitsVar name := by
  obtain ⟨number, -, issued, rfl⟩ := serves.mem_takenVars_iff.mp taken
  exact Scope.admitsVar_temporary_iff.mpr issued

theorem admitsLabel_of_taken (serves : table.Serves caller callee after receiver result?)
    {name : Label} (taken : name ∈ table.takenLabels) : after.AdmitsLabel name := by
  obtain ⟨number, -, issued, rfl⟩ := serves.mem_takenLabels_iff.mp taken
  exact Scope.admitsLabel_numbered_iff.mpr issued

theorem not_mem_vars_of_taken (serves : table.Serves caller callee after receiver result?)
    (wellNamed : caller.WellNamed) {name : Variable} (taken : name ∈ table.takenVars result?) :
    name ∉ caller.vars := by
  obtain ⟨number, notYet, -, rfl⟩ := serves.mem_takenVars_iff.mp taken
  exact fun occurs => absurd (wellNamed.vars number occurs) (Nat.not_lt.mpr notYet)

theorem not_mem_labels_of_taken (serves : table.Serves caller callee after receiver result?)
    (wellNamed : caller.WellNamed) {name : Label} (taken : name ∈ table.takenLabels) :
    name ∉ caller.labels := by
  obtain ⟨number, notYet, -, rfl⟩ := serves.mem_takenLabels_iff.mp taken
  exact fun occurs => absurd (wellNamed.labels number occurs) (Nat.not_lt.mpr notYet)

/-- Whatever the callee's names are, the table puts names of the caller in their place. -/
theorem within_admits (serves : table.Serves caller callee after receiver result?)
    (advances : caller.Advances after)
    (receiverWithin : receiver.Within caller.AdmitsVar caller.AdmitsLabel)
    (resultAdmitted : ∀ name ∈ result?, caller.AdmitsVar name) :
    table.Within after.AdmitsVar after.AdmitsLabel where
  vars := fun old new renamed => serves.admitsVar_of_taken (mem_takenVars renamed result?)
  labels := by
    intro old new renamed
    refine serves.admitsLabel_of_taken (List.mem_cons_of_mem _ (List.mem_reverse.mpr ?_))
    exact Bindings.mem_values_iff.mpr ⟨old, renamed⟩
  receiver := by
    rw [serves.receiver_eq]
    exact receiverWithin.imp advances.admitsVar advances.admitsLabel
  callResult := by
    cases result? with
    | some result =>
        rw [serves.callResult_eq]
        exact advances.admitsVar result (resultAdmitted result rfl)
    | none => exact serves.admitsVar_of_taken List.mem_cons_self
  exitLabel := serves.admitsLabel_of_taken List.mem_cons_self

end RenamingTable.Serves

/-- What the caller passes has only names of the caller. The callee may have any. -/
structure Call.AdmittedBy (call : Call) (caller : Scope) : Prop where
  receiver : call.receiver.Within caller.AdmitsVar caller.AdmitsLabel
  arguments : ∀ argument ∈ call.arguments,
    argument.Within caller.AdmitsVar caller.AdmitsLabel
  result : ∀ name ∈ call.result?, caller.AdmitsVar name

namespace Scope

variable {scope caller after : Scope}

theorem WellNamed.inline (wellNamed : caller.WellNamed) {call : Call}
    (admitted : call.AdmittedBy caller) {fragment : Code Value}
    (inlined : caller.inline call.callee call.receiver call.arguments call.result? =
      .ok (fragment, after)) : (after.append fragment).WellNamed := by
  obtain ⟨table, built, emitted⟩ := emits_of_inline inlined
  have advances := advances_of_renamingTable_eq built
  have serves := serves_of_renamingTable_eq built
  -- The counters grow before the fragment is there, so both are judged by the grown ones.
  refine (wellNamed.advance advances).append fun instruction member => ?_
  refine (emitted instruction member).within
    (serves.within_admits advances admitted.receiver admitted.result) fun argument given => ?_
  exact (admitted.arguments argument given).imp advances.admitsVar advances.admitsLabel

/-! ## Histories of scopes -/

inductive Action where
  | newTemporary
  | newLabel
  | push (instruction : Instruction Value)
  | insertAt (position : Nat) (instruction : Instruction Value)
  | setInstructions (code : Code Value)
  | renamingTable (callee : Scope) (receiver : Operand Value) (result? : Option Variable)
  | inline (call : Call)
  | fold (options : FoldOptions)

def perform (scope : Scope) : Action → Scope
  | .newTemporary => scope.newTemporary.2
  | .newLabel => scope.newLabel.2
  | .push instruction => scope.push instruction
  | .insertAt position instruction => scope.insertAt position instruction
  | .setInstructions code => scope.setInstructions code
  | .renamingTable callee receiver result? => (scope.renamingTable callee receiver result?).2
  | .inline call =>
    match scope.inline call.callee call.receiver call.arguments call.result? with
    | .ok (fragment, after) => after.append fragment
    | .error _ => scope
  | .fold options => (scope.fold options).2

/-- What a client writes into the scope has only names of the scope. -/
def Action.AdmittedBy (scope : Scope) : Action → Prop
  | .push instruction | .insertAt _ instruction =>
    instruction.Within scope.AdmitsVar scope.AdmitsLabel
  | .setInstructions code =>
    ∀ instruction ∈ code, instruction.Within scope.AdmitsVar scope.AdmitsLabel
  | .inline call => call.AdmittedBy scope
  | .newTemporary | .newLabel | .renamingTable .. | .fold _ => True

theorem WellNamed.perform (wellNamed : scope.WellNamed) {action : Action}
    (admitted : action.AdmittedBy scope) : (scope.perform action).WellNamed := by
  cases action with
  | newTemporary => exact wellNamed.advance scope.advances_newTemporary
  | newLabel => exact wellNamed.advance scope.advances_newLabel
  | push instruction => exact wellNamed.append (List.forall_mem_singleton.mpr admitted)
  | insertAt position instruction => exact wellNamed.insertAt position admitted
  | setInstructions code => exact wellNamed.setInstructions admitted
  | renamingTable callee receiver result? =>
      exact wellNamed.advance (scope.advances_renamingTable callee receiver result?)
  | inline call =>
      simp only [Scope.perform]
      split
      · next fragment after inlined => exact wellNamed.inline admitted inlined
      · exact wellNamed
  | fold options => exact wellNamed.fold options

theorem WellNamed.newTemporary_not_mem (wellNamed : scope.WellNamed) :
    scope.newTemporary.1 ∉ scope.vars :=
  fun occurs => Nat.lt_irrefl _ (wellNamed.vars _ occurs)

theorem WellNamed.newLabel_not_mem (wellNamed : scope.WellNamed) :
    scope.newLabel.1 ∉ scope.labels :=
  fun occurs => Nat.lt_irrefl _ (wellNamed.labels _ occurs)

end Scope

/-- Scopes that are worked on side by side. -/
abbrev Scopes := Bindings String Scope

namespace Scopes

inductive Action where
  | on (key : String) (action : Scope.Action)
  | clone (key target : String)

def perform (scopes : Scopes) : Action → Scopes
  | .on key action =>
    match scopes.get? key with
    | some scope => scopes.insert key (scope.perform action)
    | none => scopes
  | .clone key target =>
    match scopes.get? key with
    | some scope => scopes.insert target scope
    | none => scopes

def performAll (scopes : Scopes) (actions : List Action) : Scopes :=
  actions.foldl perform scopes

def Action.AdmittedBy (scopes : Scopes) : Action → Prop
  | .on key action => ∀ scope, scopes.get? key = some scope → action.AdmittedBy scope
  | .clone _ _ => True

/-- Each action is admitted by the scopes that it finds. -/
def AdmitsAll (scopes : Scopes) : List Action → Prop
  | [] => True
  | action :: rest => action.AdmittedBy scopes ∧ AdmitsAll (scopes.perform action) rest

def WellNamed (scopes : Scopes) : Prop :=
  ∀ key scope, scopes.get? key = some scope → scope.WellNamed

variable {scopes : Scopes}

theorem WellNamed.insert (wellNamed : scopes.WellNamed) (key : String) {scope : Scope}
    (scopeWellNamed : scope.WellNamed) : WellNamed (Bindings.insert scopes key scope) :=
  Bindings.forall_get?_insert wellNamed scopeWellNamed

theorem WellNamed.perform (wellNamed : scopes.WellNamed) {action : Action}
    (admitted : action.AdmittedBy scopes) : (scopes.perform action).WellNamed := by
  cases action with
  | on key action =>
      simp only [Scopes.perform]
      split
      · next scope bound =>
        exact wellNamed.insert key ((wellNamed key scope bound).perform (admitted scope bound))
      · exact wellNamed
  | clone key target =>
      simp only [Scopes.perform]
      split
      · next scope bound => exact wellNamed.insert target (wellNamed key scope bound)
      · exact wellNamed

theorem WellNamed.performAll (wellNamed : scopes.WellNamed) {actions : List Action}
    (admitted : scopes.AdmitsAll actions) : (scopes.performAll actions).WellNamed := by
  induction actions generalizing scopes with
  | nil => exact wellNamed
  | cons action rest ih => exact ih (wellNamed.perform admitted.1) admitted.2

/-- Scopes stay well named whatever is done with them, so no scope ever hands out a name that
occurs in it: no single one, and none that it takes for a call. -/
theorem issued_names_fresh (scopes : Scopes) (wellNamed : scopes.WellNamed)
    (actions : List Action) (admitted : scopes.AdmitsAll actions) (key : String) (scope : Scope)
    (bound : (scopes.performAll actions).get? key = some scope) :
    scope.WellNamed ∧ scope.newTemporary.1 ∉ scope.vars ∧ scope.newLabel.1 ∉ scope.labels ∧
      ∀ callee receiver result?,
        (∀ name ∈ (scope.renamingTable callee receiver result?).1.takenVars result?,
          name ∉ scope.vars) ∧
        ∀ name ∈ (scope.renamingTable callee receiver result?).1.takenLabels,
          name ∉ scope.labels := by
  have scopeWellNamed := wellNamed.performAll admitted key scope bound
  refine ⟨scopeWellNamed, scopeWellNamed.newTemporary_not_mem, scopeWellNamed.newLabel_not_mem,
    fun callee receiver result? => ?_⟩
  have serves := scope.renamingTable_serves callee receiver result?
  exact ⟨fun name => serves.not_mem_vars_of_taken scopeWellNamed,
    fun name => serves.not_mem_labels_of_taken scopeWellNamed⟩

theorem Action.admittedBy_on {key : String} {scope : Scope} {action : Scope.Action}
    (found : scopes.get? key = some scope) (admitted : action.AdmittedBy scope) :
    (Action.on key action).AdmittedBy scopes := by
  intro scope' bound
  rw [found] at bound
  cases bound
  exact admitted

def alone : Scopes := Bindings.insert ∅ "main" (Scope.create "main" [⟨"x"⟩])

/-- Inlines a callee that uses the caller's own names, folds, and goes on with a copy. -/
def twiceInlined : List Action := [
  .on "main" .newTemporary,
  .on "main" (.push (.copy (.temporary 0) (.var ⟨"x"⟩))),
  .on "main" (.inline ⟨Scope.pairing, .self, [.var (.temporary 0)], some (.temporary 0)⟩),
  .on "main" (.fold {}),
  .clone "main" "copy",
  .on "copy" (.inline ⟨Scope.pairing, .var (.temporary 0), [.self], none⟩)]

theorem alone_wellNamed : alone.WellNamed := by
  refine WellNamed.insert (fun key scope bound => by cases bound) "main" ?_
  refine Scope.wellNamed_iff.mpr ⟨List.forall_mem_singleton.mpr ?_, nofun⟩
  exact Scope.admitsVar_of_head? (by decide)

theorem twiceInlined_admitted : alone.AdmitsAll twiceInlined := by
  have issued : ∀ scope : Scope, 0 < scope.nextTemporary → scope.AdmitsVar (.temporary 0) :=
    fun scope positive => Scope.admitsVar_temporary_iff.mpr positive
  refine ⟨Action.admittedBy_on rfl trivial, Action.admittedBy_on rfl ⟨?_, nofun⟩,
    Action.admittedBy_on rfl ⟨⟨nofun, nofun⟩, ?_, ?_⟩, Action.admittedBy_on rfl trivial,
    trivial, Action.admittedBy_on rfl ⟨⟨?_, nofun⟩, ?_, nofun⟩, trivial⟩
  · exact List.forall_mem_cons.mpr ⟨issued _ Nat.one_pos,
      List.forall_mem_singleton.mpr (Scope.admitsVar_of_head? (by decide))⟩
  · exact List.forall_mem_singleton.mpr
      ⟨List.forall_mem_singleton.mpr (issued _ Nat.one_pos), nofun⟩
  · rintro _ ⟨⟩
    exact issued _ Nat.one_pos
  · exact List.forall_mem_singleton.mpr (issued _ (by decide))
  · exact List.forall_mem_singleton.mpr ⟨nofun, nofun⟩

theorem twiceInlined_issues_fresh : alone.WellNamed ∧ alone.AdmitsAll twiceInlined ∧
    ∃ main copy,
      (alone.performAll twiceInlined).get? "main" = some main ∧
      (alone.performAll twiceInlined).get? "copy" = some copy ∧
      (main.nextTemporary, main.nextLabel) = (3, 3) ∧
      (copy.nextTemporary, copy.nextLabel) = (6, 6) ∧
      main.newTemporary.1 ∉ main.vars ∧ copy.newLabel.1 ∉ copy.labels := by
  obtain ⟨-, freshVar, -⟩ := issued_names_fresh alone alone_wellNamed twiceInlined
    twiceInlined_admitted "main" _ rfl
  obtain ⟨-, -, freshLabel, -⟩ := issued_names_fresh alone alone_wellNamed twiceInlined
    twiceInlined_admitted "copy" _ rfl
  exact ⟨alone_wellNamed, twiceInlined_admitted, _, _, rfl, rfl, by decide, by decide, freshVar,
    freshLabel⟩

end Scopes

end LinearIR
