import Mathlib.Data.Finset.Card
import LinearIR.Proofs.Inlining.Layout
import LinearIR.Proofs.ScopeNames

/-!
# When a call can be inlined

A call is inlined if it passes as many arguments as the callee takes. Every name that is then
looked up has been given an image, so no lookup fails. A name that occurs again has its image
already, so the caller's counters grow by the numbers of distinct names.
-/

set_option autoImplicit false

namespace LinearIR

namespace Bindings

variable {κ ν : Type} [DecidableEq κ]

theorem length_values_eq_card {bindings : Bindings κ ν} {keys : List κ}
    (bound : ∀ key, (bindings.get? key).isSome ↔ key ∈ keys) :
    bindings.values.length = keys.toFinset.card := by
  have distinct : (bindings.entries.map Prod.fst).Nodup :=
    List.pairwise_map.mpr bindings.distinct
  have sameKeys : (bindings.entries.map Prod.fst).toFinset = keys.toFinset := by
    ext key
    rw [List.mem_toFinset, List.mem_toFinset, ← bound, Option.isSome_iff_exists]
    simp [get?_eq_some_iff]
  rw [← sameKeys, List.toFinset_card_of_nodup distinct, values, List.length_map, List.length_map]

end Bindings

namespace RenamingTable

variable {table : RenamingTable}

theorem length_passArguments {pairs : List (Variable × Operand Value)} {passed : Code Value}
    (succeeded : table.passArguments pairs = .ok passed) : passed.length = pairs.length := by
  induction pairs generalizing passed with
  | nil => cases succeeded; rfl
  | cons pair rest ih =>
      obtain ⟨image, following, -, restPassed, rfl⟩ := passArguments_cons succeeded
      rw [List.length_cons, List.length_cons, ih restPassed]

namespace Serves

variable {caller callee after : Scope} {receiver : Operand Value} {result? : Option Variable}

/-- Each variable of the callee takes one temporary of the caller, however often it occurs. -/
theorem nextTemporary_eq (serves : table.Serves caller callee after receiver result?) :
    after.nextTemporary = caller.nextTemporary + callee.vars.toFinset.card +
      if result?.isNone then 1 else 0 := by
  have taken := congrArg List.length serves.takenVars_eq
  rw [List.length_map, List.Ico.length] at taken
  have renamed := Bindings.length_values_eq_card serves.renames_var
  have grown := serves.temporaries_le
  cases result? with
  | some result =>
      rw [takenVars, List.length_reverse, renamed] at taken
      simp only [Option.isNone_some, Bool.false_eq_true, if_false]
      omega
  | none =>
      rw [takenVars, List.length_cons, List.length_reverse, renamed] at taken
      simp only [Option.isNone_none, if_true]
      omega

theorem nextLabel_eq (serves : table.Serves caller callee after receiver result?) :
    after.nextLabel = caller.nextLabel + callee.labels.toFinset.card + 1 := by
  have taken := congrArg List.length serves.takenLabels_eq
  rw [List.length_map, List.Ico.length, takenLabels, List.length_cons, List.length_reverse,
    Bindings.length_values_eq_card serves.renames_label] at taken
  have grown := serves.labels_le
  omega

end Serves

end RenamingTable

namespace Scope

variable {caller callee after : Scope} {receiver : Operand Value}
  {arguments : List (Operand Value)} {result? : Option Variable} {fragment : Code Value}

theorem length_inline
    (inlined : caller.inline callee receiver arguments result? = .ok (fragment, after)) :
    fragment.length = callee.params.length + callee.instructions.length +
      callee.instructions.countP Instruction.isReturn + 1 := by
  obtain ⟨table, passed, body, -, sameLength, passedArguments, renamedBody, rfl⟩ :=
    inline_eq_ok_iff.mp inlined
  have passedLength := RenamingTable.length_passArguments passedArguments
  have bodyLength := RenamingTable.length_renameBody renamedBody
  rw [List.length_zip, sameLength, Nat.min_self] at passedLength
  rw [Code.renamedPosition, List.take_length] at bodyLength
  rw [List.length_append, List.length_append, passedLength, bodyLength, List.length_singleton]
  omega

theorem after_inline
    (inlined : caller.inline callee receiver arguments result? = .ok (fragment, after)) :
    after = { caller with
      nextTemporary := caller.nextTemporary + callee.vars.toFinset.card +
        if result?.isNone then 1 else 0
      nextLabel := caller.nextLabel + callee.labels.toFinset.card + 1 } := by
  obtain ⟨table, -, -, built, -⟩ := inline_eq_ok_iff.mp inlined
  have serves := serves_of_renamingTable_eq built
  have advances := advances_of_renamingTable_eq built
  rw [← serves.nextTemporary_eq, ← serves.nextLabel_eq, ← advances.name_eq, ← advances.params_eq,
    ← advances.instructions_eq]

/-! ## Inlining in place -/

private theorem run_modifyGet_bind {ε σ α β : Type} (update : σ → α × σ)
    (next : α → ExceptT ε (StateM σ) β) (state : σ) :
    (modifyGet update >>= next : ExceptT ε (StateM σ) β).run.run state =
      (next (update state).1).run.run (update state).2 := rfl

theorem inlineInPlace_of_arity_ne (caller : Scope)
    (differs : arguments.length ≠ callee.params.length) :
    (inlineInPlace callee receiver arguments result?).run.run caller =
      (.error (.arityMismatch callee.params.length arguments.length), caller) := by
  rw [inlineInPlace, if_pos differs]
  rfl

theorem inlineInPlace_of_inline
    (inlined : caller.inline callee receiver arguments result? = .ok (fragment, after)) :
    (inlineInPlace callee receiver arguments result?).run.run caller = (.ok fragment, after) := by
  obtain ⟨table, passed, body, built, sameLength, passedArguments, renamedBody, rfl⟩ :=
    inline_eq_ok_iff.mp inlined
  rw [inlineInPlace, if_neg (not_not_intro sameLength), run_modifyGet_bind, built, passedArguments,
    renamedBody]
  rfl

/-- Inlining is inlining in place, with the changed caller beside the fragment instead of in the
state. -/
theorem inline_eq_inlineInPlace (caller callee : Scope) (receiver : Operand Value)
    (arguments : List (Operand Value)) (result? : Option Variable) :
    caller.inline callee receiver arguments result? =
      let (inlined, after) := (inlineInPlace callee receiver arguments result?).run.run caller
      inlined.map fun fragment => (fragment, after) := by
  by_cases sameLength : arguments.length = callee.params.length
  · obtain ⟨fragment, after, inlined⟩ := caller.exists_inline callee receiver result? sameLength
    rw [inlined, inlineInPlace_of_inline inlined]
    rfl
  · rw [inlineInPlace_of_arity_ne caller sameLength, inline, if_pos sameLength]
    rfl

/-- A call fails if and only if the number of arguments is wrong. The error has the two numbers,
and the caller is what it was. Any other call is inlined, and the caller has lost one temporary
for each variable of the callee and for a result that the call does not name, one label for each
label of the callee and for the exit, and nothing else. The fragment copies the arguments, has the
callee's code with a jump behind each return, and ends with the exit's label. -/
theorem inline_fails_only_on_arity (caller callee : Scope) (receiver : Operand Value)
    (arguments : List (Operand Value)) (result? : Option Variable) :
    ((∃ error after, (inlineInPlace callee receiver arguments result?).run.run caller =
        (.error error, after)) ↔ arguments.length ≠ callee.params.length) ∧
    (∀ error after, (inlineInPlace callee receiver arguments result?).run.run caller =
        (.error error, after) →
      error = .arityMismatch callee.params.length arguments.length ∧ after = caller) ∧
    (arguments.length = callee.params.length →
      ∃ fragment, (inlineInPlace callee receiver arguments result?).run.run caller =
          (.ok fragment, { caller with
            nextTemporary := caller.nextTemporary + callee.vars.toFinset.card +
              if result?.isNone then 1 else 0
            nextLabel := caller.nextLabel + callee.labels.toFinset.card + 1 }) ∧
        fragment.length = callee.params.length + callee.instructions.length +
          callee.instructions.countP Instruction.isReturn + 1) := by
  by_cases sameLength : arguments.length = callee.params.length
  · obtain ⟨fragment, after, inlined⟩ := caller.exists_inline callee receiver result? sameLength
    rw [inlineInPlace_of_inline inlined]
    refine ⟨⟨?_, fun differs => absurd sameLength differs⟩, ?_, fun _ => ?_⟩
    · rintro ⟨error, after', same⟩
      cases same
    · intro error after' same
      cases same
    · refine ⟨fragment, ?_, length_inline inlined⟩
      rw [after_inline inlined]
  · rw [inlineInPlace_of_arity_ne caller sameLength]
    refine ⟨⟨fun _ => sameLength, fun _ => ⟨_, _, rfl⟩⟩, ?_, fun same => absurd same sameLength⟩
    intro error after same
    cases same
    exact ⟨rfl, rfl⟩

theorem pairing_takes_one_argument :
    (inlineInPlace pairing .self [] none).run.run (create "main" []) =
        (.error (.arityMismatch 1 0), create "main" []) ∧
      ∃ fragment, (inlineInPlace pairing .self [.var ⟨"x"⟩] none).run.run (create "main" []) =
          (.ok fragment, { create "main" [] with nextTemporary := 3, nextLabel := 3 }) ∧
        fragment.length = 6 := by
  obtain ⟨fails, unchanged, -⟩ :=
    inline_fails_only_on_arity (create "main" []) pairing .self [] none
  obtain ⟨error, after, failed⟩ := fails.mpr (by decide)
  obtain ⟨rfl, rfl⟩ := unchanged error after failed
  obtain ⟨-, -, succeeds⟩ :=
    inline_fails_only_on_arity (create "main" []) pairing .self [.var ⟨"x"⟩] none
  exact ⟨failed, succeeds rfl⟩

end Scope

end LinearIR
