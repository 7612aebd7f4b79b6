import LinearIR.Proofs.Runs

/-!
# Cutting a run off

A run executes instructions one after the other until it ends, if it does. The number of executed
instructions decides what a limit does: a run that needs no more than the limit is left as it is,
and any other is cut off where it stands after exactly that many.
-/

set_option autoImplicit false

namespace LinearIR

variable {γ V : Type} [ExecutionContext γ V] [ValueLike V] {code : Code V} {receiver : V}

namespace RunState

/-- The states of a run without a limit: control is at an instruction, or the run has ended and
was not cut off. -/
def Uncut (code : Code V) : RunState γ V → Prop
  | .running position _ => position < code.length
  | .ended outcome _ => ∀ steps limit, outcome ≠ .stepLimit steps limit

omit [ExecutionContext γ V] [ValueLike V] in
theorem uncut_arrive (code : Code V) (position : Nat) (context : γ) :
    (arrive code position context).Uncut code := by
  unfold arrive
  split
  · next inside => exact inside
  · exact nofun

omit [ValueLike V] in
theorem uncut_follow (position : Nat) (instruction : Instruction V) (target? : Option Label)
    (context : γ) : (follow code position instruction target? context).Uncut code := by
  unfold follow
  split
  · split
    · exact uncut_arrive code _ context
    · exact nofun
  · split
    · rcases ExecutionContext.takeReturn.run context with ⟨_ | value, after⟩ <;> exact nofun
    · exact uncut_arrive code _ context

theorem uncut_step {state : RunState γ V} (uncut : state.Uncut code) :
    (step code receiver state).Uncut code := by
  cases state with
  | ended outcome context => exact uncut
  | running position context =>
      unfold step
      dsimp only
      split
      · exact nofun
      · split
        · exact uncut_follow position _ _ _
        · exact nofun

/-- Exactly so many instructions are executed between two states. -/
inductive Executes (code : Code V) (receiver : V) :
    Nat → RunState γ V → RunState γ V → Prop where
  | none {state} : Executes code receiver 0 state state
  | next {count position context instruction last} :
      code[position]? = some instruction →
      Executes code receiver count (step code receiver (.running position context)) last →
      Executes code receiver (count + 1) (.running position context) last

theorem Executes.advance_eq {count : Nat} {first last : RunState γ V}
    (executes : Executes code receiver count first last) :
    advance code receiver count first = last := by
  induction executes with
  | none => exact advance_zero _
  | next found rest ih => rw [advance_succ, ih]

/-- A run either ends within a number of instructions or executes as many. -/
theorem executes_within (limit : Nat) {state : RunState γ V} (uncut : state.Uncut code) :
    (∃ count ≤ limit, ∃ outcome final, Executes code receiver count state (.ended outcome final)) ∨
      ∃ position cut, Executes code receiver limit state (.running position cut) := by
  induction limit generalizing state with
  | zero =>
      cases state with
      | running position context => exact .inr ⟨position, context, .none⟩
      | ended outcome context => exact .inl ⟨0, Nat.le_refl 0, outcome, context, .none⟩
  | succ limit ih =>
      -- The first instruction counts even if it ends the run, so one less is left for the others.
      cases state with
      | ended outcome context => exact .inl ⟨0, Nat.zero_le _, outcome, context, .none⟩
      | running position context =>
          have found := List.getElem?_eq_getElem uncut
          rcases ih (uncut_step uncut) with
            ⟨count, within, outcome, final, rest⟩ | ⟨next, cut, rest⟩
          · exact .inl ⟨count + 1, Nat.succ_le_succ within, outcome, final, .next found rest⟩
          · exact .inr ⟨next, cut, .next found rest⟩

theorem Executes.trans {count count' : Nat} {start middle last : RunState γ V}
    (executes : Executes code receiver count start middle)
    (following : Executes code receiver count' middle last) :
    Executes code receiver (count + count') start last := by
  induction executes with
  | none => rwa [Nat.zero_add]
  | next found _ ih =>
      rw [Nat.add_right_comm]
      exact .next found (ih following)

theorem Executes.count_unique {count count' : Nat} {state : RunState γ V}
    {outcome outcome' : Outcome V} {final final' : γ}
    (ends : Executes code receiver count state (.ended outcome final))
    (ends' : Executes code receiver count' state (.ended outcome' final')) : count = count' := by
  generalize reached : RunState.ended outcome final = last at ends
  induction ends generalizing count' with
  | none => subst reached; cases ends'; rfl
  | next found rest ih =>
      cases ends' with
      | next found' rest' => rw [ih rest' reached]

/-- What every executed instruction preserves holds at the end of a run. -/
theorem Executes.preserves {holds : RunState γ V → Prop}
    (kept : ∀ position context instruction, code[position]? = some instruction →
      holds (.running position context) → holds (step code receiver (.running position context)))
    {count : Nat} {first last : RunState γ V}
    (executes : Executes code receiver count first last) (start : holds first) : holds last := by
  induction executes with
  | none => exact start
  | next found rest ih => exact ih (kept _ _ _ found start)

theorem Executes.uncut {count : Nat} {first last : RunState γ V}
    (executes : Executes code receiver count first last) (uncut : first.Uncut code) :
    last.Uncut code :=
  executes.preserves (fun _ _ _ _ => uncut_step) uncut

/-- How a run ends that has executed so many instructions: as its state says, or cut off. -/
inductive Stops {γ V : Type} (limit? : Option Nat) (count : Nat) :
    RunState γ V → Outcome V → γ → Prop where
  | ended {outcome context} : (∀ limit ∈ limit?, count ≤ limit) →
      Stops limit? count (.ended outcome context) outcome context
  | cut {position context} : limit? = some count →
      Stops limit? count (.running position context) (.stepLimit count count) context

end RunState

namespace Code

/-- The run without a limit executes exactly so many instructions and then ends. -/
def EndsAfter (code : Code V) (receiver : V) (context : γ) (count : Nat) (outcome : Outcome V)
    (final : γ) : Prop :=
  RunState.Executes code receiver count (.arrive code 0 context) (.ended outcome final)

theorem EndsAfter.run_eq {context final : γ} {count limit : Nat} {outcome : Outcome V}
    (ends : code.EndsAfter receiver context count outcome final) (within : count ≤ limit) :
    code.run (some limit) receiver context = (outcome, final) := by
  have ended := RunState.advance_eq_of_ended ends.advance_eq within
  simp only [run, Option.getD_some, runWithin, ended]

theorem EndsAfter.ne_stepLimit {context final : γ} {count : Nat} {outcome : Outcome V}
    (ends : code.EndsAfter receiver context count outcome final) (steps limit : Nat) :
    outcome ≠ .stepLimit steps limit :=
  ends.uncut (RunState.uncut_arrive code 0 context) steps limit

theorem run_eq_of_executes {context cut : γ} {limit position : Nat}
    (goesOn : RunState.Executes code receiver limit (.arrive code 0 context)
      (.running position cut)) :
    code.run (some limit) receiver context = (.stepLimit limit limit, cut) := by
  simp only [run, Option.getD_some, runWithin, goesOn.advance_eq]

theorem endsAfter_or_executes (code : Code V) (receiver : V) (context : γ) (limit : Nat) :
    (∃ count ≤ limit, ∃ outcome final, code.EndsAfter receiver context count outcome final) ∨
      ∃ position cut,
        RunState.Executes code receiver limit (.arrive code 0 context) (.running position cut) :=
  RunState.executes_within limit (RunState.uncut_arrive code 0 context)

theorem runsTo_none_iff {context final : γ} {outcome : Outcome V} :
    code.RunsTo none receiver context outcome final ↔
      ∃ count, code.EndsAfter receiver context count outcome final := by
  constructor
  · intro ran
    obtain ⟨steps, ended⟩ := ran
    rcases code.endsAfter_or_executes receiver context steps with
      ⟨count, -, outcome', final', ends⟩ | ⟨position, cut, goesOn⟩
    · obtain ⟨rfl, rfl⟩ := RunState.ended_unique ended ends.advance_eq
      exact ⟨count, ends⟩
    · rw [goesOn.advance_eq] at ended
      cases ended
  · intro ends
    obtain ⟨count, ends⟩ := ends
    exact ⟨count, ends.advance_eq⟩

theorem runsTo_iff_executes {limit? : Option Nat} {context final : γ} {outcome : Outcome V} :
    code.RunsTo limit? receiver context outcome final ↔ ∃ count last,
      RunState.Executes code receiver count (.arrive code 0 context) last ∧
        last.Stops limit? count outcome final := by
  cases limit? with
  | none =>
      rw [runsTo_none_iff]
      constructor
      · intro ran
        obtain ⟨count, ends⟩ := ran
        exact ⟨count, _, ends, .ended nofun⟩
      · intro ran
        obtain ⟨count, last, executes, stops⟩ := ran
        cases stops with
        | ended _ => exact ⟨count, executes⟩
        | cut unlimited => cases unlimited
  | some limit =>
      change code.run (some limit) receiver context = (outcome, final) ↔ _
      constructor
      · intro ran
        rcases code.endsAfter_or_executes receiver context limit with
          ⟨count, within, outcome', final', ends⟩ | ⟨position, cut, goesOn⟩
        · rw [ends.run_eq within] at ran
          cases ran
          exact ⟨count, _, ends, .ended (by simpa using within)⟩
        · rw [run_eq_of_executes goesOn] at ran
          cases ran
          exact ⟨limit, _, goesOn, .cut rfl⟩
      · intro ran
        obtain ⟨count, last, executes, stops⟩ := ran
        cases stops with
        | ended within => exact EndsAfter.run_eq executes (within limit rfl)
        | cut same =>
            cases same
            exact run_eq_of_executes executes

/-- A run that is not cut off is the run without a limit, and is over by the limit, or by the number
of instructions after which a run without one is given up. -/
theorem run_eq_iff {limit? : Option Nat} {context final : γ} {outcome : Outcome V}
    (notCut : ∀ steps limit, outcome ≠ .stepLimit steps limit) :
    code.run limit? receiver context = (outcome, final) ↔
      ∃ count ≤ limit?.getD unlimitedSteps,
        code.EndsAfter receiver context count outcome final := by
  change code.run (some (limit?.getD unlimitedSteps)) receiver context = (outcome, final) ↔ _
  constructor
  · intro ran
    rcases code.endsAfter_or_executes receiver context (limit?.getD unlimitedSteps) with
      ⟨count, within, outcome', final', ends⟩ | ⟨position, cut, goesOn⟩
    · rw [ends.run_eq within] at ran
      cases ran
      exact ⟨count, within, ends⟩
    · rw [run_eq_of_executes goesOn] at ran
      cases ran
      exact absurd rfl (notCut _ _)
  · intro ends
    obtain ⟨count, within, ends⟩ := ends
    exact ends.run_eq within

/-- A limit cuts a run off exactly. The run without a limit ends after one number of instructions
or never, and `run` gives that run unless the number is above `unlimitedSteps`. If the limit allows
as many, the limited run is that run. Otherwise it is cut off in the context which that run has
after exactly as many instructions as the limit says. So a limited run that is not cut off stays as
it is under any higher limit and without one. -/
theorem run_cut_off_exactly (code : Code V) (receiver : V) (context : γ) :
    (∀ count outcome final, code.EndsAfter receiver context count outcome final →
      ∀ count' outcome' final', code.EndsAfter receiver context count' outcome' final' →
        count = count' ∧ outcome = outcome' ∧ final = final') ∧
    (∀ outcome final, code.RunsTo none receiver context outcome final ↔
      ∃ count, code.EndsAfter receiver context count outcome final) ∧
    (∀ outcome final, (∀ steps bound, outcome ≠ .stepLimit steps bound) →
      (code.run none receiver context = (outcome, final) ↔
        ∃ count ≤ unlimitedSteps, code.EndsAfter receiver context count outcome final)) ∧
    ∀ limit,
      (∀ count outcome final, code.EndsAfter receiver context count outcome final →
        count ≤ limit → code.run (some limit) receiver context = (outcome, final) ∧
          ∀ steps bound, outcome ≠ .stepLimit steps bound) ∧
      ((∀ count outcome final, code.EndsAfter receiver context count outcome final →
        limit < count) → ∃ position cut,
          RunState.Executes code receiver limit (.arrive code 0 context) (.running position cut) ∧
          code.run (some limit) receiver context = (.stepLimit limit limit, cut)) ∧
      ((∀ steps bound, (code.run (some limit) receiver context).1 ≠ .stepLimit steps bound) →
        (∀ more, limit ≤ more →
          code.run (some more) receiver context = code.run (some limit) receiver context) ∧
        code.RunsTo none receiver context (code.run (some limit) receiver context).1
          (code.run (some limit) receiver context).2) := by
  refine ⟨?_, fun _ _ => runsTo_none_iff, fun _ _ => run_eq_iff, fun limit => ⟨?_, ?_, ?_⟩⟩
  · intro count outcome final ends count' outcome' final' ends'
    exact ⟨ends.count_unique ends', RunState.ended_unique ends.advance_eq ends'.advance_eq⟩
  · intro count outcome final ends within
    exact ⟨ends.run_eq within, ends.ne_stepLimit⟩
  · intro longer
    rcases code.endsAfter_or_executes receiver context limit with
      ⟨count, within, outcome, final, ends⟩ | ⟨position, cut, goesOn⟩
    · exact absurd within (Nat.not_le.mpr (longer count outcome final ends))
    · exact ⟨position, cut, goesOn, run_eq_of_executes goesOn⟩
  · intro notCut
    have ran : code.run (some limit) receiver context = (_, _) := rfl
    obtain ⟨count, within, ends⟩ := (run_eq_iff notCut).mp ran
    have within : count ≤ limit := within
    rw [ends.run_eq within]
    exact ⟨fun more above => ends.run_eq (Nat.le_trans within above),
      runsTo_none_iff.mpr ⟨count, ends⟩⟩

def shortTrip : Code Value := [
  .copy ⟨"x"⟩ (.constant .nil),
  .jump ⟨"out"⟩,
  .ret .self,
  .label ⟨"out"⟩,
  .ret (.var ⟨"x"⟩)]

theorem shortTrip_endsAfter :
    shortTrip.EndsAfter Value.nil Frame.empty 4 (.returned Value.nil)
      (Frame.empty.bind ⟨"x"⟩ Value.nil) :=
  .next rfl (.next rfl (.next rfl (.next rfl .none)))

/-- The return is the last instruction that counts: with a limit of four or without one the run
ends, and with a limit of three it is cut off in front of the return. -/
theorem shortTrip_cut_off :
    shortTrip.run none Value.nil Frame.empty =
      (.returned Value.nil, Frame.empty.bind ⟨"x"⟩ Value.nil) ∧
    shortTrip.run (some 4) Value.nil Frame.empty =
      (.returned Value.nil, Frame.empty.bind ⟨"x"⟩ Value.nil) ∧
    ∃ position cut,
      RunState.Executes shortTrip Value.nil 3
        (.arrive shortTrip 0 (Frame.empty : Frame Value)) (.running position cut) ∧
      shortTrip.run (some 3) Value.nil Frame.empty = (.stepLimit 3 3, cut) := by
  obtain ⟨unique, -, unlimited, limited⟩ := run_cut_off_exactly shortTrip Value.nil
    (Frame.empty : Frame Value)
  refine ⟨?_, ?_, ?_⟩
  · exact (unlimited _ _ shortTrip_endsAfter.ne_stepLimit).mpr ⟨4, by decide, shortTrip_endsAfter⟩
  · exact ((limited 4).1 4 _ _ shortTrip_endsAfter (Nat.le_refl 4)).1
  · refine (limited 3).2.1 fun count outcome final ends => ?_
    obtain ⟨rfl, -⟩ := unique 4 _ _ shortTrip_endsAfter count outcome final ends
    exact Nat.lt_succ_self 3

end Code

end LinearIR
