import Mathlib.Tactic.Choose
import LinearIR.Proofs.Folding.Soundness
import LinearIR.Proofs.Leaves

/-!
# The walks over an operand agree

Asking for a variable, listing variables, listing labels, resolving and evaluating are recursions of
their own. All of them pass the leaves of the operand from left to right, and each of them is
described by what it does at a leaf.
-/

set_option autoImplicit false

namespace LinearIR

theorem Except.Passes.map {σ ε α β : Type} {fault? : σ → Option ε} {subjects : List σ} {result : α}
    {computed : Except ε α} (passes : Passes fault? subjects result computed) (convert : α → β) :
    Passes fault? subjects (convert result) (computed.map convert) := by
  unfold Passes at passes ⊢
  rw [passes]
  cases subjects.findSome? fault? <;> rfl

namespace Operand

/-! ## Names at leaves -/

section

variable {V : Type}

def label? : Operand V → Option Label
  | .label name => some name
  | .var _ | .constant _ | .array _ | .self => none

theorem vars_eq_filterMap_leaves (operand : Operand V) :
    operand.vars = operand.leaves.filterMap var? := by
  induction operand using Operand.induction with
  | var | constant | label | self => rfl
  | array elements ih =>
      rw [vars, leaves, listVars_eq_flatMap, listLeaves_eq_flatMap, List.filterMap_flatMap]
      exact List.flatMap_congr ih

theorem labels_eq_filterMap_leaves (operand : Operand V) :
    operand.labels = operand.leaves.filterMap label? := by
  induction operand using Operand.induction with
  | var | constant | label | self => rfl
  | array elements ih =>
      rw [labels, leaves, listLabels_eq_flatMap, listLeaves_eq_flatMap, List.filterMap_flatMap]
      exact List.flatMap_congr ih

end

/-! ## Resolving -/

variable (known : Known)

/-- A known variable is replaced by what its operand reads, in its place. -/
theorem vars_resolve (operand : Operand Value) :
    (operand.resolve known).vars =
      operand.vars.flatMap fun name => (known.get? name).elim [name] vars := by
  induction operand using Operand.induction with
  | var name =>
      rw [resolve]
      cases bound : known.get? name <;> simp [vars, bound]
  | array elements ih =>
      rw [resolve, resolveAll_eq_map, vars, vars, listVars_eq_flatMap, listVars_eq_flatMap,
        List.flatMap_map, List.flatMap_assoc]
      exact List.flatMap_congr ih
  | constant | label | self => rfl

/-- The labels that a leaf contributes to a resolved operand. -/
def resolvedLabels : Operand Value → List Label
  | .var name => (known.get? name).elim [] labels
  | .label name => [name]
  | .constant _ | .array _ | .self => []

theorem labels_resolve (operand : Operand Value) :
    (operand.resolve known).labels = operand.leaves.flatMap (resolvedLabels known) := by
  induction operand using Operand.induction with
  | var name =>
      rw [resolve]
      cases bound : known.get? name <;> simp [leaves, labels, resolvedLabels, bound]
  | array elements ih =>
      rw [resolve, resolveAll_eq_map, labels, leaves, listLabels_eq_flatMap,
        listLeaves_eq_flatMap, List.flatMap_map, List.flatMap_assoc]
      exact List.flatMap_congr ih
  | constant | label | self => rfl

/-! ## Evaluating -/

/-- The fault at a leaf that has no value. -/
def fault? (frame : Frame Value) : Operand Value → Option (Fault Value)
  | .var name => if (frame.get? name).isSome then none else some (.unboundVariable name)
  | .label name => some (.labelAsValue name)
  | .constant _ | .array _ | .self => none

variable (frame : Frame Value) (receiver : Value)

theorem exists_valueIn_passes (operand : Operand Value) :
    ∃ value, Except.Passes (fault? frame) operand.leaves value
      (operand.valueIn frame receiver) := by
  induction operand using Operand.induction with
  | var name =>
      rw [valueIn_var]
      cases bound : frame.get? name with
      | none => exact ⟨.nil, by simp [Except.Passes, leaves, fault?, bound]⟩
      | some value => exact ⟨value, by simp [Except.Passes, leaves, fault?, bound]⟩
  | constant value => exact ⟨value, rfl⟩
  | array elements ih =>
      choose! values passes using ih
      rw [valueIn_array, leaves, listLeaves_eq_flatMap]
      exact ⟨.array (elements.map values), (Except.Passes.mapM passes).map Value.array⟩
  | label name => exact ⟨.nil, rfl⟩
  | self => exact ⟨receiver, rfl⟩

theorem faultless_iff (operand : Operand Value) :
    (∀ leaf ∈ operand.leaves, leaf.fault? frame = none) ↔
      (∀ name ∈ operand.vars, (frame.get? name).isSome) ∧ operand.labels = [] := by
  induction operand using Operand.induction with
  | var name => simp [leaves, vars, labels, fault?, Option.isSome_iff_ne_none]
  | constant | self => simp [leaves, vars, labels, fault?]
  | array elements ih =>
      rw [leaves, vars, labels, listLeaves_eq_flatMap, listVars_eq_flatMap, listLabels_eq_flatMap,
        List.forall_mem_flatMap, List.forall_mem_flatMap, List.flatMap_eq_nil_iff,
        ← forall₂_and]
      exact forall₂_congr ih
  | label name => simp [leaves, labels, fault?]

/-- The walks over an operand agree. Variables and labels are listed in the order of the leaves, and
a variable is mentioned if and only if it is listed. Evaluation succeeds if and only if every listed
variable is bound and no label is listed, and otherwise fails at the first leaf that is an unbound
variable or a label. Resolving replaces the listed variables that are known by the variables of
their operands, and adds the labels of these in the same places. -/
theorem walks_agree (operand : Operand Value) (frame : Frame Value) (receiver : Value)
    (known : Known) :
    operand.vars = operand.leaves.filterMap var? ∧
    operand.labels = operand.leaves.filterMap label? ∧
    (∀ name, operand.mentions name = true ↔ name ∈ operand.vars) ∧
    ((∃ value, operand.valueIn frame receiver = .ok value) ↔
      (∀ name ∈ operand.vars, (frame.get? name).isSome) ∧ operand.labels = []) ∧
    (∀ fault, operand.valueIn frame receiver = .error fault ↔
      ∃ before leaf after, operand.leaves = before ++ leaf :: after ∧
        leaf.fault? frame = some fault ∧ ∀ earlier ∈ before, earlier.fault? frame = none) ∧
    (operand.resolve known).vars =
      (operand.vars.flatMap fun name => (known.get? name).elim [name] vars) ∧
    (operand.resolve known).labels = operand.leaves.flatMap (resolvedLabels known) := by
  obtain ⟨value, passes⟩ := operand.exists_valueIn_passes frame receiver
  refine ⟨operand.vars_eq_filterMap_leaves, operand.labels_eq_filterMap_leaves,
    fun _ => mentions_iff_mem_vars, ?_, fun _ => passes.eq_error_iff,
    operand.vars_resolve known, operand.labels_resolve known⟩
  rw [← operand.faultless_iff frame]
  constructor
  · rintro ⟨_, evaluated⟩
    exact (passes.eq_ok_iff.mp evaluated).1
  · intro faultless
    exact ⟨value, passes.eq_ok_iff.mpr ⟨faultless, rfl⟩⟩

-- The label comes first, so it is the fault, although the variable behind it is unbound as well.
example : (array [.array [.constant .nil, .label ⟨"here"⟩], .var ⟨"x"⟩]).valueIn .empty .nil =
    .error (.labelAsValue ⟨"here"⟩) := rfl

end Operand

end LinearIR
