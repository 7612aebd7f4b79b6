import Mathlib.Data.List.Basic
import LinearIR.Operand.Basic

/-!
# Leaves of operands

An operand is a tree of array literals, and a walk over it does something at its leaves only. So a
walk that may fail is described by the leaves in order: it fails at the first leaf where it cannot
go on.
-/

set_option autoImplicit false

namespace LinearIR

/-! ## Leaves -/

namespace Operand

variable {V : Type}

mutual

/-- The parts of an operand that are no array literals, from left to right and with repeats. -/
def leaves : Operand V → List (Operand V)
  | .array elements => listLeaves elements
  | .var name => [.var name]
  | .constant value => [.constant value]
  | .label name => [.label name]
  | .self => [.self]

def listLeaves : List (Operand V) → List (Operand V)
  | [] => []
  | first :: rest => leaves first ++ listLeaves rest

end

mutual

/-- Replaces the leaves. What replaces a leaf is not looked into. -/
def mapLeaves (replace : Operand V → Operand V) : Operand V → Operand V
  | .array elements => .array (listMapLeaves replace elements)
  | .var name => replace (.var name)
  | .constant value => replace (.constant value)
  | .label name => replace (.label name)
  | .self => replace .self

def listMapLeaves (replace : Operand V → Operand V) : List (Operand V) → List (Operand V)
  | [] => []
  | first :: rest => mapLeaves replace first :: listMapLeaves replace rest

end

@[simp]
theorem listLeaves_eq_flatMap (elements : List (Operand V)) :
    listLeaves elements = elements.flatMap leaves := by
  induction elements with
  | nil => rfl
  | cons first rest ih => simp [listLeaves, ih]

@[simp]
theorem listMapLeaves_eq_map (replace : Operand V → Operand V) (elements : List (Operand V)) :
    listMapLeaves replace elements = elements.map (mapLeaves replace) := by
  induction elements with
  | nil => rfl
  | cons first rest ih => simp [listMapLeaves, ih]

/-- What is collected from the parts of an array literal is collected from the leaves. -/
theorem collect_mapLeaves {α : Type} {collect : Operand V → List α}
    (collect_array : ∀ elements, collect (.array elements) = elements.flatMap collect)
    (replace : Operand V → Operand V) (operand : Operand V) :
    collect (operand.mapLeaves replace) =
      operand.leaves.flatMap fun leaf => collect (replace leaf) := by
  induction operand using Operand.induction with
  | var | constant | label | self => simp [mapLeaves, leaves]
  | array elements ih =>
      rw [mapLeaves, listMapLeaves_eq_map, collect_array, leaves, listLeaves_eq_flatMap,
        List.flatMap_map, List.flatMap_assoc]
      exact List.flatMap_congr ih

theorem vars_mapLeaves (replace : Operand V → Operand V) (operand : Operand V) :
    (operand.mapLeaves replace).vars =
      operand.leaves.flatMap fun leaf => (replace leaf).vars :=
  collect_mapLeaves (fun elements => by rw [vars, listVars_eq_flatMap]) replace operand

theorem labels_mapLeaves (replace : Operand V → Operand V) (operand : Operand V) :
    (operand.mapLeaves replace).labels =
      operand.leaves.flatMap fun leaf => (replace leaf).labels :=
  collect_mapLeaves (fun elements => by rw [labels, listLabels_eq_flatMap]) replace operand

theorem mapLeaves_id (operand : Operand V) : operand.mapLeaves id = operand := by
  induction operand using Operand.induction with
  | var | constant | label | self => rfl
  | array elements ih =>
      rw [mapLeaves, listMapLeaves_eq_map, List.map_congr_left ih, List.map_id']

theorem vars_eq_flatMap_leaves (operand : Operand V) :
    operand.vars = operand.leaves.flatMap vars := by
  have unchanged := vars_mapLeaves id operand
  rwa [mapLeaves_id] at unchanged

theorem labels_eq_flatMap_leaves (operand : Operand V) :
    operand.labels = operand.leaves.flatMap labels := by
  have unchanged := labels_mapLeaves id operand
  rwa [mapLeaves_id] at unchanged

end Operand

/-! ## Walks that may fail -/

/-- A computation that passes subjects in order. It fails as the first of them does that fails,
and if none does, it has the result. -/
def Except.Passes {σ ε α : Type} (fault? : σ → Option ε) (subjects : List σ) (result : α)
    (computed : Except ε α) : Prop :=
  computed = match subjects.findSome? fault? with
    | some fault => .error fault
    | none => .ok result

namespace Except.Passes

variable {σ ε α β : Type} {fault? : σ → Option ε} {subjects subjects' : List σ}

theorem pure (result : α) : Passes fault? [] result (.ok result) := rfl

theorem bind {middle : α} {result : β} {first : Except ε α} {next : α → Except ε β}
    (passes : Passes fault? subjects middle first)
    (goesOn : Passes fault? subjects' result (next middle)) :
    Passes fault? (subjects ++ subjects') result (first >>= next) := by
  unfold Passes at passes goesOn ⊢
  rw [passes, List.findSome?_append]
  cases subjects.findSome? fault? with
  | some fault => rfl
  | none => exact goesOn

theorem mapM {elements : List α} {subjectsOf : α → List σ} {resultOf : α → β}
    {compute : α → Except ε β} (pass : ∀ element ∈ elements,
      Passes fault? (subjectsOf element) (resultOf element) (compute element)) :
    Passes fault? (elements.flatMap subjectsOf) (elements.map resultOf)
      (elements.mapM compute) := by
  induction elements with
  | nil => exact pure []
  | cons first rest ih =>
      obtain ⟨head, tail⟩ := List.forall_mem_cons.mp pass
      rw [List.mapM_cons, List.flatMap_cons, ← List.append_nil (rest.flatMap subjectsOf)]
      exact head.bind ((ih tail).bind (pure _))

variable {result : α} {computed : Except ε α}

theorem eq_error_iff (passes : Passes fault? subjects result computed) {fault : ε} :
    computed = .error fault ↔
      ∃ before subject after, subjects = before ++ subject :: after ∧
        fault? subject = some fault ∧ ∀ earlier ∈ before, fault? earlier = none := by
  rw [← List.findSome?_eq_some_iff, passes]
  cases subjects.findSome? fault? <;> simp

theorem eq_ok_iff (passes : Passes fault? subjects result computed) {result' : α} :
    computed = .ok result' ↔
      (∀ subject ∈ subjects, fault? subject = none) ∧ result' = result := by
  rw [← List.findSome?_eq_none_iff, passes]
  cases subjects.findSome? fault? <;> simp [eq_comm]

end Except.Passes

end LinearIR
