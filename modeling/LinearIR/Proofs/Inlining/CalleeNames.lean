import LinearIR.Proofs.Inlining.Arity
import LinearIR.Proofs.ScopeNames

/-!
# Names of the callee

A caller takes the names for a call by its own counters and does not look at the callee's names.
A callee that was built by counters of its own may therefore already have one of them, unless the
caller has handed out the callee's numbers before.
-/

set_option autoImplicit false

namespace LinearIR

/-- No name that is taken from the caller for the call occurs in the callee. -/
structure RenamingTable.ApartFrom (table : RenamingTable) (callee : Scope)
    (result? : Option Variable) : Prop where
  vars : ∀ name ∈ table.takenVars result?, name ∉ callee.vars
  labels : ∀ name ∈ table.takenLabels, name ∉ callee.labels

/-- No numbered name of the callee has a number that the caller hands out from one point to the
other. -/
structure Scope.Avoids (callee caller after : Scope) : Prop where
  temporaries : ∀ number, .temporary number ∈ callee.vars →
    number < caller.nextTemporary ∨ after.nextTemporary ≤ number
  labels : ∀ number, .numbered number ∈ callee.labels →
    number < caller.nextLabel ∨ after.nextLabel ≤ number

namespace RenamingTable.Serves

variable {table : RenamingTable} {caller callee after : Scope} {receiver : Operand Value}
  {result? : Option Variable}

theorem apartFrom_iff (serves : table.Serves caller callee after receiver result?) :
    table.ApartFrom callee result? ↔ callee.Avoids caller after := by
  constructor
  · intro apart
    constructor
    · intro number occurs
      by_contra handedOut
      obtain ⟨notBefore, notAfter⟩ := not_or.mp handedOut
      have taken : .temporary number ∈ table.takenVars result? :=
        serves.mem_takenVars_iff.mpr
          ⟨number, Nat.not_lt.mp notBefore, Nat.not_le.mp notAfter, rfl⟩
      exact apart.vars _ taken occurs
    · intro number occurs
      by_contra handedOut
      obtain ⟨notBefore, notAfter⟩ := not_or.mp handedOut
      have taken : .numbered number ∈ table.takenLabels :=
        serves.mem_takenLabels_iff.mpr
          ⟨number, Nat.not_lt.mp notBefore, Nat.not_le.mp notAfter, rfl⟩
      exact apart.labels _ taken occurs
  · intro avoids
    constructor
    · intro name taken occurs
      obtain ⟨number, started, ended, rfl⟩ := serves.mem_takenVars_iff.mp taken
      have outside := avoids.temporaries number occurs
      omega
    · intro name taken occurs
      obtain ⟨number, started, ended, rfl⟩ := serves.mem_takenLabels_iff.mp taken
      have outside := avoids.labels number occurs
      omega

end RenamingTable.Serves

namespace Scope

theorem WellNamed.avoids {callee : Scope} (wellNamed : callee.WellNamed) {caller : Scope}
    (temporaries : callee.nextTemporary ≤ caller.nextTemporary)
    (labels : callee.nextLabel ≤ caller.nextLabel) (after : Scope) :
    callee.Avoids caller after where
  temporaries number occurs := .inl (Nat.lt_of_lt_of_le (wellNamed.vars number occurs) temporaries)
  labels number occurs := .inl (Nat.lt_of_lt_of_le (wellNamed.labels number occurs) labels)

/-- A caller that has not handed out a temporary yet clashes with each callee that has the first
one. -/
theorem not_apartFrom_of_first {caller callee : Scope} (none : caller.nextTemporary = 0)
    (first : .temporary 0 ∈ callee.vars) (receiver : Operand Value)
    (result? : Option Variable) :
    ¬ (caller.renamingTable callee receiver result?).1.ApartFrom callee result? := by
  have serves := caller.renamingTable_serves callee receiver result?
  intro apart
  have outside := (serves.apartFrom_iff.mp apart).temporaries 0 first
  -- The callee has a variable, so the call takes at least one number, and the first is 0.
  have someVars : 0 < callee.vars.toFinset.card :=
    Finset.card_pos.mpr ⟨_, List.mem_toFinset.mpr first⟩
  have taken := serves.nextTemporary_eq
  omega

/-- Inlining takes names that do not occur in the callee if and only if the callee has none of the
numbers that the caller hands out for the call. So it does if the caller had handed out the
callee's numbers before. -/
theorem inline_apart_iff (caller callee : Scope) (receiver : Operand Value)
    (arguments : List (Operand Value)) (result? : Option Variable)
    (sameLength : arguments.length = callee.params.length) :
    ∃ fragment, ∃ table : RenamingTable, ∃ after,
      caller.inline callee receiver arguments result? = .ok (fragment, after) ∧
      caller.renamingTable callee receiver result? = (table, after) ∧
      (table.ApartFrom callee result? ↔ callee.Avoids caller after) ∧
      (callee.WellNamed → callee.nextTemporary ≤ caller.nextTemporary →
        callee.nextLabel ≤ caller.nextLabel → table.ApartFrom callee result?) := by
  obtain ⟨fragment, after, inlined⟩ := exists_inline caller callee receiver result? sameLength
  obtain ⟨table, -, -, built, -⟩ := inline_eq_ok_iff.mp inlined
  have apart_iff := (serves_of_renamingTable_eq built).apartFrom_iff
  refine ⟨fragment, table, after, inlined, built, apart_iff, ?_⟩
  intro wellNamed temporaries labels
  exact apart_iff.mpr (wellNamed.avoids temporaries labels after)

/-- Copies a number into its first temporary and returns it. -/
def keepsOne : Scope :=
  let (kept, scope) := (Scope.create "callee" []).newTemporary
  scope.append [.copy kept (.constant (.scalar (.fixnum 1))), .ret (.var kept)]

theorem keepsOne_wellNamed : keepsOne.WellNamed := by
  have kept : keepsOne.AdmitsVar (.temporary 0) := admitsVar_temporary_iff.mpr (by decide)
  refine wellNamed_iff.mpr ⟨nofun, ?_⟩
  refine List.forall_mem_cons.mpr ⟨⟨?_, nofun⟩, List.forall_mem_singleton.mpr ⟨?_, nofun⟩⟩
  · exact List.forall_mem_singleton.mpr kept
  · exact List.forall_mem_singleton.mpr kept

/-- A caller that has handed out one temporary and no label inlines it with other names. -/
theorem keepsOne_apart_from_later :
    ([] : List (Operand Value)).length = keepsOne.params.length ∧
    ∃ fragment, ∃ table : RenamingTable, ∃ after,
      (create "main" []).newTemporary.2.inline keepsOne .self [] none = .ok (fragment, after) ∧
      (create "main" []).newTemporary.2.renamingTable keepsOne .self none = (table, after) ∧
      table.ApartFrom keepsOne none ∧
      fragment.flatMap Instruction.vars = [.temporary 2, .temporary 1, .temporary 2] := by
  obtain ⟨fragment, table, after, inlined, built, -, apart⟩ :=
    inline_apart_iff (create "main" []).newTemporary.2 keepsOne .self [] none rfl
  refine ⟨rfl, fragment, table, after, inlined, built,
    apart keepsOne_wellNamed (Nat.le_refl 1) (Nat.le_refl 0), ?_⟩
  cases inlined
  decide

/-- A caller that has handed out nothing takes the very temporary that the callee has. -/
theorem keepsOne_clashes :
    ¬ ∀ (caller callee : Scope) (receiver : Operand Value) (arguments : List (Operand Value))
      (result? : Option Variable), arguments.length = callee.params.length →
      (caller.renamingTable callee receiver result?).1.ApartFrom callee result? := by
  intro apart
  have first : .temporary 0 ∈ keepsOne.vars := by decide
  exact not_apartFrom_of_first rfl first .self none
    (apart (create "main" []) keepsOne .self [] none rfl)

end Scope

end LinearIR
