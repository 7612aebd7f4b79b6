import LinearIR.Proofs.Evaluation

/-!
# Runs

A run is the iteration of one step, and it ends at most once. A run with a limit is read off the
state after that many steps; a run without one ends if some number of steps ends it. Two runs are
compared step by step, where a step of the one may take several steps of the other or none.
-/

set_option autoImplicit false

namespace LinearIR

namespace RunState

section

variable {γ V : Type} [ExecutionContext γ V] [ValueLike V] {code : Code V} {receiver : V}

@[simp]
theorem advance_zero (state : RunState γ V) : advance code receiver 0 state = state := by
  cases state <;> rfl

@[simp]
theorem advance_ended (steps : Nat) (outcome : Outcome V) (context : γ) :
    advance code receiver steps (.ended outcome context) = .ended outcome context := by
  cases steps <;> rfl

theorem advance_succ (steps : Nat) (state : RunState γ V) :
    advance code receiver (steps + 1) state =
      advance code receiver steps (step code receiver state) := by
  cases state with
  | running position context => rfl
  | ended outcome context => simp [step]

theorem advance_add (first second : Nat) (state : RunState γ V) :
    advance code receiver (first + second) state =
      advance code receiver second (advance code receiver first state) := by
  induction first generalizing state with
  | zero => simp
  | succ first ih => rw [Nat.succ_add, advance_succ, ih, advance_succ]

theorem advance_succ' (steps : Nat) (state : RunState γ V) :
    advance code receiver (steps + 1) state =
      step code receiver (advance code receiver steps state) := by
  rw [advance_add, advance_succ, advance_zero]

theorem advance_eq_of_ended {state : RunState γ V} {steps later : Nat} {outcome : Outcome V}
    {context : γ} (ended : advance code receiver steps state = .ended outcome context)
    (notEarlier : steps ≤ later) :
    advance code receiver later state = .ended outcome context := by
  obtain ⟨more, rfl⟩ := Nat.exists_eq_add_of_le notEarlier
  rw [advance_add, ended, advance_ended]

theorem ended_unique {state : RunState γ V} {steps steps' : Nat} {outcome outcome' : Outcome V}
    {context context' : γ} (ended : advance code receiver steps state = .ended outcome context)
    (ended' : advance code receiver steps' state = .ended outcome' context') :
    outcome = outcome' ∧ context = context' := by
  have late := advance_eq_of_ended ended (Nat.le_max_left steps steps')
  rw [advance_eq_of_ended ended' (Nat.le_max_right steps steps')] at late
  cases late
  exact ⟨rfl, rfl⟩

/-- If a step of one run is at most `width` steps of the other, then related states stay
related. -/
theorem advance_simulates {code' : Code V} {receiver' : V} {width : Nat}
    {related : RunState γ V → RunState γ V → Prop}
    (matched : ∀ state state', related state state' → ∃ taken ≤ width,
      related (step code receiver state) (advance code' receiver' taken state'))
    (steps : Nat) {state state' : RunState γ V} (start : related state state') :
    ∃ taken ≤ width * steps,
      related (advance code receiver steps state) (advance code' receiver' taken state') := by
  induction steps with
  | zero => exact ⟨0, Nat.zero_le _, by simpa using start⟩
  | succ steps ih =>
      obtain ⟨earlier, earlierBound, reached⟩ := ih
      obtain ⟨taken, takenBound, next⟩ := matched _ _ reached
      refine ⟨earlier + taken, Nat.add_le_add earlierBound takenBound, ?_⟩
      rw [advance_succ', advance_add]
      exact next

end

variable {γ V : Type} {code : Code V}

theorem arrive_of_lt {position : Nat} (inside : position < code.length) (context : γ) :
    arrive code position context = .running position context :=
  if_pos inside

theorem arrive_of_ge {position : Nat} (outside : code.length ≤ position) (context : γ) :
    arrive code position context = .ended .finished context :=
  if_neg (Nat.not_lt.mpr outside)

def FaultsAt [ExecutionContext γ V] [ValueLike V] (code : Code V) (receiver : V)
    (state : RunState γ V) (position : Nat) : Prop :=
  ∃ steps context fault after,
    advance code receiver steps state = .running position context ∧
      step code receiver (.running position context) = .ended (.faulted fault) after

theorem FaultsAt.faulted [ExecutionContext γ V] [ValueLike V] {receiver : V}
    {state : RunState γ V} {position : Nat} (faults : FaultsAt code receiver state position) :
    ∃ steps fault after, advance code receiver steps state = .ended (.faulted fault) after := by
  obtain ⟨steps, context, fault, after, reached, faulted⟩ := faults
  exact ⟨steps + 1, fault, after, by rw [advance_succ', reached, faulted]⟩

theorem FaultsAt.unique [ExecutionContext γ V] [ValueLike V] {receiver : V}
    {state : RunState γ V} {first second : Nat}
    (firstFaults : FaultsAt code receiver state first)
    (secondFaults : FaultsAt code receiver state second) : first = second := by
  obtain ⟨steps, context, fault, after, reached, faulted⟩ := firstFaults
  obtain ⟨steps', context', fault', after', reached', faulted'⟩ := secondFaults
  rw [← reached, ← advance_succ'] at faulted
  rw [← reached', ← advance_succ'] at faulted'
  rcases Nat.lt_trichotomy steps steps' with earlier | same | later
  · rw [advance_eq_of_ended faulted earlier] at reached'
    cases reached'
  · subst same
    rw [reached] at reached'
    cases reached'
    rfl
  · rw [advance_eq_of_ended faulted' later] at reached
    cases reached

end RunState

namespace Code

variable {γ V : Type} [ExecutionContext γ V] [ValueLike V]

/-- How a run from the front ends. A run without a limit may take any number of steps, so that
it need not end at all. -/
def RunsTo (code : Code V) (limit? : Option Nat) (receiver : V) (context : γ)
    (outcome : Outcome V) (final : γ) : Prop :=
  match limit? with
  | some limit => code.runWithin limit receiver context = (outcome, final)
  | none => RunState.Ends code receiver (.arrive code 0 context) outcome final

theorem RunsTo.unique {code : Code V} {limit? : Option Nat} {receiver : V}
    {context final final' : γ} {outcome outcome' : Outcome V}
    (ran : code.RunsTo limit? receiver context outcome final)
    (ran' : code.RunsTo limit? receiver context outcome' final') :
    outcome = outcome' ∧ final = final' := by
  cases limit? with
  | none =>
      obtain ⟨steps, ended⟩ := ran
      obtain ⟨steps', ended'⟩ := ran'
      exact RunState.ended_unique ended ended'
  | some limit => exact Prod.mk.inj (Eq.trans (Eq.symm ran) ran')

/-- A run that is not cut off ends after a number of steps that the limit allows. -/
theorem runsTo_iff_advance {code : Code V} {limit? : Option Nat} {receiver : V} {context : γ}
    {outcome : Outcome V} {final : γ}
    (notCut : ∀ steps limit, outcome ≠ .stepLimit steps limit) :
    code.RunsTo limit? receiver context outcome final ↔
      ∃ steps, (∀ limit ∈ limit?, steps ≤ limit) ∧
        RunState.advance code receiver steps (.arrive code 0 context) = .ended outcome final := by
  cases limit? with
  | none => simp [RunsTo, RunState.Ends]
  | some limit =>
      simp only [RunsTo, runWithin, Option.mem_some_iff, forall_eq']
      constructor
      · intro ran
        split at ran
        · next ended =>
          cases ran
          exact ⟨limit, Nat.le_refl limit, ended⟩
        · cases ran
          exact absurd rfl (notCut limit limit)
      · intro ran
        obtain ⟨steps, allowed, ended⟩ := ran
        rw [RunState.advance_eq_of_ended ended allowed]

end Code

end LinearIR
