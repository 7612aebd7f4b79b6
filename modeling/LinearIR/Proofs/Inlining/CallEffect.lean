import LinearIR.Proofs.Inlining.CallSimulation

/-!
# The effect of an inlined call

A fragment binds the images of the parameters to the arguments, runs the callee's code and leaves
at its end. What remains of it in the caller's frame is the call result.
-/

set_option autoImplicit false

namespace LinearIR

theorem Frame.ofList_eq_foldl (pairs : List (Variable × Value)) :
    Frame.ofList pairs =
      pairs.foldl (fun frame pair => frame.bind pair.1 pair.2) Frame.empty := by
  have bindings : ∀ locals : Bindings Variable Value,
      pairs.foldl (fun frame pair => frame.bind pair.1 pair.2) (Frame.mk locals none) =
        Frame.mk (pairs.foldl (fun locals pair => locals.insert pair.1 pair.2) locals) none := by
    induction pairs with
    | nil => exact fun locals => rfl
    | cons pair rest ih => exact fun locals => ih (locals.insert pair.1 pair.2)
  exact (bindings ∅).symm

/-- What a call does to the frame of its caller: the call result holds the returned value, or is
left alone if there is none, and no other variable changes but the scratch ones. -/
structure CallEffect (outcome : Outcome Value) (callResult : Variable) (scratch : Variable → Prop)
    (entry final : Frame Value) : Prop where
  returned : ∀ value, outcome = .returned value → final.get? callResult = some value
  finished : outcome = .finished → final.get? callResult = entry.get? callResult
  other : ∀ name, name ≠ callResult → ¬ scratch name → final.get? name = entry.get? name
  pending : final.pending = entry.pending

namespace RenamingTable

variable {table : RenamingTable} {entry callee caller : Frame Value}
  {calleeSelf callerSelf : Value} {code whole : Code Value} {base : Nat}

/-- The copies of the arguments bind the images of the parameters, so that a later parameter wins
over an earlier one of the same name. -/
theorem advance_passArguments (apart : table.Apart) {params : List Variable}
    {arguments : List (Operand Value)} {values : List Value} {passed : Code Value}
    (succeeded : table.passArguments (params.zip arguments) = .ok passed)
    (argumentsApart : ∀ argument ∈ arguments, ∀ name ∈ argument.vars,
      ∀ old, table.vars.get? old ≠ some name)
    (evaluated : arguments.mapM (Operand.valueIn · entry callerSelf) = .ok values)
    (mirrors : table.Mirrors entry callee caller)
    (found : ∀ offset instruction, passed[offset]? = some instruction →
      whole[base + offset]? = some instruction) :
    ∃ caller', RunState.advance whole callerSelf passed.length (.arrive whole base caller) =
        .arrive whole (base + passed.length) caller' ∧
      table.Mirrors entry
        ((params.zip values).foldl (fun frame pair => frame.bind pair.1 pair.2) callee)
        caller' := by
  induction params generalizing arguments values passed base callee caller with
  | nil =>
      cases succeeded
      exact ⟨caller, by simp, mirrors⟩
  | cons param params ih =>
      cases arguments with
      | nil =>
          cases succeeded
          cases evaluated
          exact ⟨caller, by simp, mirrors⟩
      | cons argument arguments =>
          obtain ⟨image, following, renamed, restPassed, rfl⟩ := passArguments_cons succeeded
          rw [List.mapM_cons] at evaluated
          obtain ⟨value, firstEvaluated, evaluated⟩ := Except.exists_ok_of_bind evaluated
          obtain ⟨others, restEvaluated, same⟩ := Except.exists_ok_of_bind evaluated
          cases same
          obtain ⟨firstApart, laterApart⟩ := List.forall_mem_cons.mp argumentsApart
          have copyFound : whole[base]? = some (.copy image argument) := found 0 _ rfl
          have inside := (List.getElem?_eq_some_iff.mp copyFound).1
          have copied : RunState.step whole callerSelf (.running base caller) =
              .arrive whole (base + 1) (caller.bind image value) := by
            rw [RunState.step_running copyFound, Instruction.effect,
              mirrors.valueIn_eq firstApart, firstEvaluated]
            rfl
          have restFound : ∀ offset instruction, following[offset]? = some instruction →
              whole[base + 1 + offset]? = some instruction := by
            intro offset instruction here
            rw [Nat.add_right_comm]
            exact found (offset + 1) instruction here
          obtain ⟨caller', passes, mirrors'⟩ := ih restPassed laterApart restEvaluated
            (mirrors.bind apart renamed value) restFound
          refine ⟨caller', ?_, mirrors'⟩
          rw [List.length_cons, RunState.arrive_of_lt inside, RunState.advance_succ, copied, passes,
            Nat.add_right_comm]
          rfl

theorem Mirrors.finished (mirrors : table.Mirrors entry callee caller) (apart : table.Apart) :
    CallEffect .finished table.callResult (fun name => ∃ old, table.vars.get? old = some name)
      entry caller where
  returned _ same := by cases same
  finished _ := mirrors.other _ apart.callResult
  other name _ notScratch := mirrors.other name fun old renamed => notScratch ⟨old, renamed⟩
  pending := mirrors.pending

theorem Mirrors.returned (mirrors : table.Mirrors entry callee caller) (value : Value) :
    CallEffect (.returned value) table.callResult
      (fun name => ∃ old, table.vars.get? old = some name) entry
      (caller.bind table.callResult value) where
  returned _ same := by
    cases same
    exact Frame.get?_bind_self caller table.callResult value
  finished same := by cases same
  other name notResult notScratch := by
    rw [Frame.get?_bind_of_ne _ notResult]
    exact mirrors.other name fun old renamed => notScratch ⟨old, renamed⟩
  pending := mirrors.pending

/-- A callee that ends by itself ends in the fragment too, where control leaves at the exit. -/
theorem Places.leaves (places : table.Places code whole base) (apart : table.Apart)
    (self : table.receiver.valueIn entry callerSelf = .ok calleeSelf)
    (mirrors : table.Mirrors entry callee caller) {outcome : Outcome Value}
    {calleeFinal : Frame Value} (ran : code.RunsTo none calleeSelf callee outcome calleeFinal)
    (ends : outcome = .finished ∨ ∃ value, outcome = .returned value) :
    ∃ taken final, RunState.advance whole callerSelf taken (.arrive whole base caller) =
        .arrive whole (base + code.renamedPosition code.length + 1) final ∧
      CallEffect outcome table.callResult (fun name => ∃ old, table.vars.get? old = some name)
        entry final := by
  obtain ⟨steps, ended⟩ := ran
  obtain ⟨taken, follows⟩ := places.follows_advance apart self mirrors steps
  rw [ended] at follows
  generalize reached : RunState.advance whole callerSelf taken (.arrive whole base caller) = state
    at follows
  cases follows with
  | finished mirrors => exact ⟨taken, _, reached, mirrors.finished apart⟩
  | returned value mirrors => exact ⟨taken, _, reached, mirrors.returned value⟩
  | faulted fault => rcases ends with same | ⟨value, same⟩ <;> cases same

/-- Control that enters a fragment leaves it at its end, if the callee ends by itself. -/
theorem leaves_fragment (apart : table.Apart) (labelsApart : table.LabelsApart)
    {params : List Variable} {arguments : List (Operand Value)} {values : List Value}
    {passed body fragment : Code Value}
    (passedArguments : table.passArguments (params.zip arguments) = .ok passed)
    (renamedBody : table.renameBody code = .ok body)
    (shape : fragment = passed ++ (body ++ [.label table.exitLabel]))
    (argumentsApart : ∀ argument ∈ arguments, ∀ name ∈ argument.vars,
      ∀ old, table.vars.get? old ≠ some name)
    (argumentValues : arguments.mapM (Operand.valueIn · entry callerSelf) = .ok values)
    (self : table.receiver.valueIn entry callerSelf = .ok calleeSelf)
    {before following : Code Value}
    (followingApart : ∀ instruction ∈ fragment, ∀ name ∈ instruction.labels,
      following.Undefined name)
    {outcome : Outcome Value} {calleeFinal : Frame Value}
    (ran : code.RunsTo none calleeSelf (Frame.ofList (params.zip values)) outcome calleeFinal)
    (ends : outcome = .finished ∨ ∃ value, outcome = .returned value) :
    ∃ steps final,
      RunState.advance (before ++ fragment ++ following) callerSelf steps
          (.running before.length entry) =
        .arrive (before ++ fragment ++ following) (before.length + fragment.length) final ∧
      CallEffect outcome table.callResult (fun name => ∃ old, table.vars.get? old = some name)
        entry final := by
  subst shape
  have passedFound : ∀ offset instruction, passed[offset]? = some instruction →
      (before ++ (passed ++ (body ++ [.label table.exitLabel])) ++
        following)[before.length + offset]? = some instruction := by
    intro offset instruction found
    have inside := (List.getElem?_eq_some_iff.mp found).1
    apply Code.getElem?_middle
    rw [List.getElem?_append_left inside, found]
  have places := places_of_renameBody renamedBody labelsApart (before ++ passed)
    fun instruction member => followingApart instruction (List.mem_append_right passed member)
  rw [List.append_assoc before] at places
  generalize before ++ (passed ++ (body ++ [.label table.exitLabel])) ++ following = whole
    at places passedFound
  have inside : before.length < whole.length := by
    have exitInside := (List.getElem?_eq_some_iff.mp places.exit).1
    rw [List.length_append] at exitInside
    omega
  have leftAt : (before ++ passed).length + code.renamedPosition code.length + 1 =
      before.length + (passed ++ (body ++ [Instruction.label table.exitLabel])).length := by
    simp only [List.length_append, List.length_singleton, length_renameBody renamedBody]
    omega
  obtain ⟨entered, passes, mirrors⟩ := advance_passArguments apart passedArguments argumentsApart
    argumentValues (.start table entry) passedFound
  rw [← Frame.ofList_eq_foldl] at mirrors
  obtain ⟨taken, final, left, effect⟩ := places.leaves apart self mirrors ran ends
  refine ⟨passed.length + taken, final, ?_, effect⟩
  rw [← RunState.arrive_of_lt inside, RunState.advance_add, passes, ← List.length_append, left,
    leftAt]

end RenamingTable

/-- The names issued for a call are apart from those that were issued before. -/
theorem RenamingTable.Serves.apart {table : RenamingTable} {caller callee after : Scope}
    {receiver : Operand Value} {result? : Option Variable}
    (serves : table.Serves caller callee after receiver result?)
    (receiverIssued : ∀ name ∈ receiver.vars, ¬ caller.Unissued name)
    (resultIssued : ∀ result ∈ result?, ¬ caller.Unissued result) : table.Apart where
  var_unique _ _ _ := serves.var_unique
  receiver name read old renamed := by
    rw [serves.receiver_eq] at read
    exact receiverIssued name read (serves.issues renamed).1
  callResult old renamed := by
    cases result? with
    | none => exact serves.renamed_ne_callResult old renamed
    | some result =>
        rw [serves.callResult_eq] at renamed
        exact resultIssued result rfl (serves.issues renamed).1

/-- Inlining a call preserves its meaning. Let no operand of the call and no given result be a
name that the caller has still to hand out, and let the arguments and the receiver have values in
the caller's frame. Then there is a fragment, and wherever it stands, before code that defines no
label of it: if the callee ends by itself when it runs with these values, control that enters the
fragment leaves it at the end, with the callee's result in the call result and every variable as
before that is neither the call result nor issued for the call. Labels defined in front of the
fragment do not matter, because a jump continues at the last definition. -/
theorem Scope.inline_preserves_call (caller callee : Scope) (receiver : Operand Value)
    (arguments : List (Operand Value)) (result? : Option Variable)
    (sameLength : arguments.length = callee.params.length)
    (operandsIssued : ∀ operand ∈ receiver :: arguments, ∀ name ∈ operand.vars,
      ¬ caller.Unissued name)
    (resultIssued : ∀ result ∈ result?, ¬ caller.Unissued result)
    (frame : Frame Value) (callerSelf self : Value) (values : List Value)
    (receiverValue : receiver.valueIn frame callerSelf = .ok self)
    (argumentValues : arguments.mapM (·.valueIn frame callerSelf) = .ok values) :
    ∃ fragment after, caller.inline callee receiver arguments result? = .ok (fragment, after) ∧
      ∀ before following : Code Value,
        (∀ instruction ∈ fragment, ∀ name ∈ instruction.labels, following.Undefined name) →
        ∀ outcome calleeFinal,
          callee.instructions.RunsTo none self (Frame.ofList (callee.params.zip values)) outcome
            calleeFinal →
          (outcome = .finished ∨ ∃ value, outcome = .returned value) →
          ∃ steps final,
            RunState.advance (before ++ fragment ++ following) callerSelf steps
                (.running before.length frame) =
              .arrive (before ++ fragment ++ following) (before.length + fragment.length) final ∧
            CallEffect outcome (result?.getD (.temporary caller.nextTemporary))
              (fun name => caller.Unissued name ∧ ¬ after.Unissued name) frame final := by
  obtain ⟨receiverIssued, argumentsIssued⟩ := List.forall_mem_cons.mp operandsIssued
  obtain ⟨fragment, after, inlined⟩ := caller.exists_inline callee receiver result? sameLength
  refine ⟨fragment, after, inlined, ?_⟩
  intro before following followingApart outcome calleeFinal ran ends
  obtain ⟨table, passed, body, built, -, passedArguments, renamedBody, rfl⟩ :=
    inline_eq_ok_iff.mp inlined
  have serves := caller.renamingTable_serves callee receiver result?
  rw [built] at serves
  have apart := serves.apart receiverIssued resultIssued
  have labelsApart : table.LabelsApart :=
    ⟨fun _ _ _ => serves.label_unique, serves.renamed_ne_exitLabel⟩
  have argumentsApart : ∀ argument ∈ arguments, ∀ name ∈ argument.vars,
      ∀ old, table.vars.get? old ≠ some name := by
    intro argument given name read old renamed
    exact argumentsIssued argument given name read (serves.issues renamed).1
  have tableReceiver : table.receiver.valueIn frame callerSelf = .ok self := by
    rw [serves.receiver_eq, receiverValue]
  obtain ⟨steps, final, left, effect⟩ := RenamingTable.leaves_fragment apart labelsApart
    passedArguments renamedBody (List.append_assoc passed body _) argumentsApart argumentValues
    tableReceiver followingApart ran ends
  refine ⟨steps, final, left, ?_⟩
  rw [← serves.callResult_eq]
  exact { effect with
    other := by
      intro name notResult notScratch
      apply effect.other name notResult
      intro renamed
      obtain ⟨old, image⟩ := renamed
      exact notScratch (serves.issues image) }

/-- Loops until its parameter is two, and returns it behind the receiver. Its first label is spelled
like a label of the caller, and the later one of two arguments binds the parameter. -/
def untilTwo : Scope where
  name := "untilTwo"
  params := [⟨"a"⟩, ⟨"a"⟩]
  instructions := [.label ⟨"_LBL_0"⟩,
    .beq (.var ⟨"a"⟩) (.constant (.scalar (.fixnum 2))) ⟨"done"⟩,
    .copy ⟨"a"⟩ (.constant (.scalar (.fixnum 2))), .jump ⟨"_LBL_0"⟩, .label ⟨"done"⟩,
    .ret (.array [.self, .var ⟨"a"⟩])]
  nextTemporary := 0
  nextLabel := 0

/-- The call result is the variable that the receiver is read from. -/
theorem inlined_untilTwo_preserves_call : ∃ fragment after,
    (Scope.create "main" []).inline untilTwo (.var ⟨"r"⟩)
        [.constant Value.nil, .var ⟨"x"⟩] (some ⟨"r"⟩) = .ok (fragment, after) ∧
      ∃ steps final,
        RunState.advance ([] ++ fragment ++ [.ret (.var ⟨"r"⟩)]) Value.nil steps
            (.running 0 (Frame.ofList [(⟨"r"⟩, Value.array []), (⟨"x"⟩, Value.nil)])) =
          .arrive ([] ++ fragment ++ [.ret (.var ⟨"r"⟩)]) (0 + fragment.length) final ∧
        final.get? ⟨"r"⟩ = some (.array [.array [], .scalar (.fixnum 2)]) := by
  have issued : ∀ name ∈ [(⟨"r"⟩ : Variable), ⟨"x"⟩], ¬ (Scope.create "main" []).Unissued name := by
    intro name member
    refine Scope.not_unissued_of_head? _ ?_
    revert name
    decide
  obtain ⟨fragment, after, inlined, runs⟩ := Scope.inline_preserves_call
    (Scope.create "main" []) untilTwo (.var ⟨"r"⟩) [.constant Value.nil, .var ⟨"x"⟩] (some ⟨"r"⟩)
    rfl (by simpa [Operand.vars] using issued) (by simpa using issued ⟨"r"⟩ (by simp))
    (Frame.ofList [(⟨"r"⟩, Value.array []), (⟨"x"⟩, Value.nil)]) Value.nil (.array [])
    [.nil, .nil] rfl rfl
  obtain ⟨steps, final, left, effect⟩ := runs [] [.ret (.var ⟨"r"⟩)]
    (by simp [Code.Undefined, Instruction.defines])
    (.returned (.array [.array [], .scalar (.fixnum 2)])) _ ⟨9, rfl⟩ (.inr ⟨_, rfl⟩)
  exact ⟨fragment, after, inlined, steps, final, left, effect.returned _ rfl⟩

end LinearIR
