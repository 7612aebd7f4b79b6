import LinearIR.Proofs.Inlining.Layout
import LinearIR.Proofs.Runs

/-!
# A fragment does what the call does

While the fragment runs, the images hold the values of the callee's variables, and every other
variable of the caller is as it was at the call. So each step of the callee is one step of the
fragment, except that a return becomes three: the copy of the value, the jump and the exit.
-/

set_option autoImplicit false

namespace LinearIR

/-- The images are apart from the operand that stands for the receiver and from the call
result. -/
structure RenamingTable.Apart (table : RenamingTable) : Prop where
  var_unique : ∀ first second image, table.vars.get? first = some image →
    table.vars.get? second = some image → first = second
  receiver : ∀ name ∈ table.receiver.vars, ∀ old, table.vars.get? old ≠ some name
  callResult : ∀ old, table.vars.get? old ≠ some table.callResult

/-- The images hold the values of the callee's variables, and all other variables of the caller
are as they were at the entry. -/
structure RenamingTable.Mirrors (table : RenamingTable) (entry callee caller : Frame Value) :
    Prop where
  image : ∀ old new value, table.vars.get? old = some new → callee.get? old = some value →
    caller.get? new = some value
  other : ∀ name, (∀ old, table.vars.get? old ≠ some name) → caller.get? name = entry.get? name
  pending : caller.pending = entry.pending

namespace RenamingTable

variable {table : RenamingTable} {entry callee caller : Frame Value}

theorem Mirrors.start (table : RenamingTable) (entry : Frame Value) :
    table.Mirrors entry .empty entry where
  image _ _ _ _ bound := by cases bound
  other _ _ := rfl
  pending := rfl

/-- A write to a variable of the callee is a write to its image. -/
theorem Mirrors.bind (mirrors : table.Mirrors entry callee caller) (apart : table.Apart)
    {old new : Variable} (renamed : table.vars.get? old = some new) (value : Value) :
    table.Mirrors entry (callee.bind old value) (caller.bind new value) where
  image old' new' value' renamed' bound := by
    by_cases same : old' = old
    · subst same
      rw [renamed] at renamed'
      cases renamed'
      rw [Frame.get?_bind_self] at bound ⊢
      exact bound
    · have imagesDiffer : new' ≠ new := by
        intro sameImage
        exact same (apart.var_unique old' old new (sameImage ▸ renamed') renamed)
      rw [Frame.get?_bind_of_ne _ same] at bound
      rw [Frame.get?_bind_of_ne _ imagesDiffer]
      exact mirrors.image old' new' value' renamed' bound
  other name notImage := by
    have differs : name ≠ new := by
      intro same
      exact notImage old (same ▸ renamed)
    rw [Frame.get?_bind_of_ne _ differs]
    exact mirrors.other name notImage
  pending := mirrors.pending

theorem Mirrors.valueIn_eq (mirrors : table.Mirrors entry callee caller) {operand : Operand Value}
    (apart : ∀ name ∈ operand.vars, ∀ old, table.vars.get? old ≠ some name) (receiver : Value) :
    operand.valueIn caller receiver = operand.valueIn entry receiver :=
  Operand.valueIn_congr receiver fun name read => mirrors.other name (apart name read)

variable {calleeSelf callerSelf : Value}

theorem Mirrors.valueIn_rename (mirrors : table.Mirrors entry callee caller) (apart : table.Apart)
    (self : table.receiver.valueIn entry callerSelf = .ok calleeSelf)
    {operand renamed : Operand Value} (succeeded : operand.rename table = .ok renamed)
    {value : Value} (evaluated : operand.valueIn callee calleeSelf = .ok value) :
    renamed.valueIn caller callerSelf = .ok value := by
  induction operand using Operand.induction generalizing renamed value with
  | var name =>
      obtain ⟨new, image, rfl⟩ := Operand.rename_var_eq_ok_iff.mp succeeded
      rw [Operand.valueIn_var] at evaluated ⊢
      cases bound : callee.get? name with
      | none => simp [bound] at evaluated
      | some value' =>
          rw [mirrors.image name new value' image bound]
          simpa [bound] using evaluated
  | constant constant =>
      cases succeeded
      exact evaluated
  | array elements ih =>
      rw [Operand.valueIn_array] at evaluated
      obtain ⟨renamedElements, elementsRenamed, rfl⟩ := Operand.rename_array_eq_ok_iff.mp succeeded
      obtain ⟨values, elementsEvaluated, rfl⟩ := Except.exists_ok_of_map evaluated
      rw [Operand.valueIn_array]
      have renamedEvaluated : renamedElements.mapM (Operand.valueIn · caller callerSelf) =
          .ok values :=
        Except.mapM_transfer elementsRenamed elementsEvaluated
          fun element member _ _ elementRenamed elementEvaluated =>
            ih element member elementRenamed elementEvaluated
      rw [renamedEvaluated]
      rfl
  | label name => cases evaluated
  | self =>
      cases succeeded
      cases evaluated
      rw [mirrors.valueIn_eq apart.receiver]
      exact self

end RenamingTable

/-- What becomes of an effect. A return becomes a write of the call result. -/
inductive Effect.Renames (table : RenamingTable) : Effect → Effect → Prop where
  | store {old new} (value : Value) :
      table.vars.get? old = some new → Renames table (.store old value) (.store new value)
  | skip : Renames table .skip .skip
  | goto {old new} : table.labels.get? old = some new → Renames table (.goto old) (.goto new)
  | ret (value : Value) : Renames table (.ret value) (.store table.callResult value)

namespace RenamingTable

variable {table : RenamingTable} {entry callee caller : Frame Value}
  {calleeSelf callerSelf : Value}

theorem Mirrors.performs (mirrors : table.Mirrors entry callee caller) (apart : table.Apart)
    (self : table.receiver.valueIn entry callerSelf = .ok calleeSelf)
    {instruction renamed : Instruction Value} (renames : instruction.Renames table renamed)
    {effect : Effect} (performs : instruction.Performs callee calleeSelf effect) :
    ∃ effect', effect.Renames table effect' ∧ renamed.Performs caller callerSelf effect' := by
  have sameValue : ∀ {operand operand' : Operand Value} {value : Value},
      operand.rename table = .ok operand' → operand.valueIn callee calleeSelf = .ok value →
        operand'.valueIn caller callerSelf = .ok value :=
    fun succeeded evaluated => mirrors.valueIn_rename apart self succeeded evaluated
  cases performs with
  | copy evaluated =>
      cases renames with
      | copy image sourceRenamed =>
          exact ⟨_, .store _ image, .copy (sameValue sourceRenamed evaluated)⟩
  | getArray evaluated extracted =>
      cases renames with
      | getArray image arrayRenamed =>
          exact ⟨_, .store _ image, .getArray (sameValue arrayRenamed evaluated) extracted⟩
  | label =>
      cases renames with
      | label image => exact ⟨_, .skip, .label⟩
  | jump =>
      cases renames with
      | jump image => exact ⟨_, .goto image, .jump⟩
  | equal firstEvaluated secondEvaluated same =>
      cases renames with
      | beq firstRenamed secondRenamed image =>
          exact ⟨_, .goto image, .equal (sameValue firstRenamed firstEvaluated)
            (sameValue secondRenamed secondEvaluated) same⟩
  | differ firstEvaluated secondEvaluated differ =>
      cases renames with
      | beq firstRenamed secondRenamed image =>
          exact ⟨_, .skip, .differ (sameValue firstRenamed firstEvaluated)
            (sameValue secondRenamed secondEvaluated) differ⟩
  | ret evaluated =>
      cases renames with
      | ret valueRenamed => exact ⟨_, .ret _, .copy (sameValue valueRenamed evaluated)⟩

/-- A run of the callee, and the run of the fragment that follows it. Once the callee has ended
without a fault, the fragment has been left. -/
inductive Follows (table : RenamingTable) (code whole : Code Value) (base : Nat)
    (entry : Frame Value) :
    RunState (Frame Value) Value → RunState (Frame Value) Value → Prop where
  | running {position frame frame'} :
      position < code.length → table.Mirrors entry frame frame' →
      Follows table code whole base entry (.running position frame)
        (.running (base + code.renamedPosition position) frame')
  | finished {frame frame'} :
      table.Mirrors entry frame frame' →
      Follows table code whole base entry (.ended .finished frame)
        (.arrive whole (base + code.renamedPosition code.length + 1) frame')
  | returned {frame frame' final} (value : Value) :
      table.Mirrors entry frame frame' →
      Follows table code whole base entry (.ended (.returned value) final)
        (.arrive whole (base + code.renamedPosition code.length + 1)
          (frame'.bind table.callResult value))
  | faulted (fault : Fault Value) (final state) :
      Follows table code whole base entry (.ended (.faulted fault) final) state

variable {code whole : Code Value} {base : Nat}

theorem Places.advance_exit (places : table.Places code whole base) (caller : Frame Value) :
    RunState.advance whole callerSelf 1
        (.arrive whole (base + code.renamedPosition code.length) caller) =
      .arrive whole (base + code.renamedPosition code.length + 1) caller := by
  have inside := (List.getElem?_eq_some_iff.mp places.exit).1
  rw [RunState.arrive_of_lt inside, RunState.advance_succ, RunState.advance_zero,
    RunState.step_running places.exit]
  rfl

/-- Where the callee arrives, the fragment arrives too, or it leaves by the exit. -/
theorem Places.follows_arrive (places : table.Places code whole base)
    (mirrors : table.Mirrors entry callee caller) {position : Nat}
    (bounded : position ≤ code.length) (callerSelf : Value) :
    ∃ taken ≤ 1, table.Follows code whole base entry (.arrive code position callee)
      (RunState.advance whole callerSelf taken
        (.arrive whole (base + code.renamedPosition position) caller)) := by
  rcases Nat.lt_or_eq_of_le bounded with inside | rfl
  · obtain ⟨renamed, -, found⟩ := places.renamed (List.getElem?_eq_getElem inside)
    have wholeInside := (List.getElem?_eq_some_iff.mp found).1
    refine ⟨0, Nat.zero_le 1, ?_⟩
    rw [RunState.advance_zero, RunState.arrive_of_lt inside, RunState.arrive_of_lt wholeInside]
    exact .running inside mirrors
  · refine ⟨1, Nat.le_refl 1, ?_⟩
    rw [places.advance_exit, RunState.arrive_of_ge (Nat.le_refl _)]
    exact .finished mirrors

/-- After the copy of a returned value the fragment is left. -/
theorem Places.advance_leave (places : table.Places code whole base) {position : Nat}
    {instruction : Instruction Value} (found : code[position]? = some instruction)
    (returns : instruction.isReturn = true) (caller : Frame Value) :
    RunState.advance whole callerSelf 2
        (.arrive whole (base + code.renamedPosition position + 1) caller) =
      .arrive whole (base + code.renamedPosition code.length + 1) caller := by
  have leave := places.leave found returns
  have inside := (List.getElem?_eq_some_iff.mp leave).1
  have jumped : RunState.step whole callerSelf
      (.running (base + code.renamedPosition position + 1) caller) =
        .arrive whole (base + code.renamedPosition code.length) caller := by
    rw [RunState.step_running leave]
    simp only [Instruction.effect, pure, Except.pure, RunState.perform, places.exitLabel]
  rw [RunState.arrive_of_lt inside, RunState.advance_succ, jumped, places.advance_exit]

theorem Places.follows_next (places : table.Places code whole base)
    (mirrors : table.Mirrors entry callee caller) {position : Nat}
    {instruction : Instruction Value} (found : code[position]? = some instruction)
    (stays : instruction.isReturn = false) (callerSelf : Value) :
    ∃ taken ≤ 1, table.Follows code whole base entry (.arrive code (position + 1) callee)
      (RunState.advance whole callerSelf taken
        (.arrive whole (base + code.renamedPosition position + 1) caller)) := by
  have inside := (List.getElem?_eq_some_iff.mp found).1
  rw [Nat.add_assoc, ← Code.renamedPosition_succ found stays]
  exact places.follows_arrive mirrors inside callerSelf

theorem Places.follows_step (places : table.Places code whole base) (apart : table.Apart)
    (self : table.receiver.valueIn entry callerSelf = .ok calleeSelf)
    {state state' : RunState (Frame Value) Value}
    (follows : table.Follows code whole base entry state state') :
    ∃ taken ≤ 3, table.Follows code whole base entry (RunState.step code calleeSelf state)
      (RunState.advance whole callerSelf taken state') := by
  cases follows with
  | @running position frame frame' inside mirrors =>
      have found := List.getElem?_eq_getElem inside
      obtain ⟨renamed, renames, renamedFound⟩ := places.renamed found
      rw [RunState.step_running found]
      cases performed : code[position].effect frame calleeSelf with
      | error fault => exact ⟨0, by omega, .faulted fault _ _⟩
      | ok effect =>
          have performs := Instruction.effect_eq_ok_iff.mp performed
          obtain ⟨effect', effectRenamed, performs'⟩ := mirrors.performs apart self renames performs
          have stepped : RunState.step whole callerSelf
              (.running (base + code.renamedPosition position) frame') =
                .perform whole (base + code.renamedPosition position) frame' (.ok effect') := by
            rw [RunState.step_running renamedFound, Instruction.effect_eq_ok_iff.mpr performs']
          -- Every effect takes the first step, and arriving at the end of the callee another one.
          have first : ∀ taken, RunState.advance whole callerSelf (taken + 1)
              (.running (base + code.renamedPosition position) frame') =
                RunState.advance whole callerSelf taken
                  (.perform whole (base + code.renamedPosition position) frame' (.ok effect')) :=
            fun taken => by rw [RunState.advance_succ, stepped]
          cases effectRenamed with
          | store value image =>
              have stays : code[position].isReturn = false := performs.isReturn_eq
              obtain ⟨taken, bound, next⟩ :=
                places.follows_next (mirrors.bind apart image value) found stays callerSelf
              exact ⟨taken + 1, by omega, first taken ▸ next⟩
          | skip =>
              have stays : code[position].isReturn = false := performs.isReturn_eq
              obtain ⟨taken, bound, next⟩ := places.follows_next mirrors found stays callerSelf
              exact ⟨taken + 1, by omega, first taken ▸ next⟩
          | @goto old new image =>
              cases labelFound : code.labelPosition? old with
              | none =>
                  refine ⟨0, by omega, ?_⟩
                  simp only [RunState.perform, labelFound]
                  exact .faulted _ _ _
              | some target =>
                  have bounded := Nat.le_of_lt (Code.labelPosition?_lt labelFound)
                  obtain ⟨taken, bound, next⟩ := places.follows_arrive mirrors bounded callerSelf
                  refine ⟨taken + 1, by omega, ?_⟩
                  rw [first]
                  simp only [RunState.perform, labelFound, places.label image labelFound]
                  exact next
          | ret value =>
              have returns : code[position].isReturn = true := performs.isReturn_eq
              refine ⟨3, Nat.le_refl 3, ?_⟩
              rw [first]
              simp only [RunState.perform, places.advance_leave found returns]
              exact .returned value mirrors
  | finished mirrors => exact ⟨0, by omega, by simpa using .finished mirrors⟩
  | returned value mirrors => exact ⟨0, by omega, by simpa using .returned value mirrors⟩
  | faulted fault final state => exact ⟨0, by omega, .faulted fault final _⟩

/-- The fragment follows every run of the callee. -/
theorem Places.follows_advance (places : table.Places code whole base) (apart : table.Apart)
    (self : table.receiver.valueIn entry callerSelf = .ok calleeSelf)
    (mirrors : table.Mirrors entry callee caller) (steps : Nat) :
    ∃ taken, table.Follows code whole base entry
      (RunState.advance code calleeSelf steps (.arrive code 0 callee))
      (RunState.advance whole callerSelf taken (.arrive whole base caller)) := by
  obtain ⟨entering, -, entered⟩ := places.follows_arrive mirrors (Nat.zero_le _) callerSelf
  obtain ⟨taken, -, follows⟩ := RunState.advance_simulates
    (fun _ _ follows => places.follows_step apart self follows) steps entered
  refine ⟨entering + taken, ?_⟩
  rw [RunState.advance_add]
  exact follows

end RenamingTable

end LinearIR
