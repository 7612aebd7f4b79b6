/-!
# Finite bindings

A finite map from keys to values, kept as a list of entries with distinct keys.
The view is `Bindings.get?`; every operation is described by one equation through it.
-/

set_option autoImplicit false

namespace LinearIR

structure Bindings (κ ν : Type) where
  entries : List (κ × ν)
  distinct : entries.Pairwise fun first second => first.1 ≠ second.1
  deriving DecidableEq

namespace Bindings

variable {κ ν : Type}

def empty : Bindings κ ν where
  entries := []
  distinct := .nil

instance : EmptyCollection (Bindings κ ν) := ⟨empty⟩

instance : Inhabited (Bindings κ ν) := ⟨empty⟩

def size (bindings : Bindings κ ν) : Nat :=
  bindings.entries.length

def isEmpty (bindings : Bindings κ ν) : Bool :=
  bindings.entries.isEmpty

def filter (bindings : Bindings κ ν) (keep : κ → ν → Bool) : Bindings κ ν where
  entries := bindings.entries.filter fun entry => keep entry.1 entry.2
  distinct := bindings.distinct.filter _

variable [DecidableEq κ]

def get? (bindings : Bindings κ ν) (key : κ) : Option ν :=
  bindings.entries.lookup key

def contains (bindings : Bindings κ ν) (key : κ) : Bool :=
  (bindings.get? key).isSome

def erase (bindings : Bindings κ ν) (key : κ) : Bindings κ ν :=
  bindings.filter fun candidate _ => candidate ≠ key

/-- Binds a key. An earlier binding of the same key is replaced. -/
def insert (bindings : Bindings κ ν) (key : κ) (value : ν) : Bindings κ ν where
  entries := (key, value) :: (bindings.erase key).entries
  distinct := by
    refine List.pairwise_cons.mpr ⟨?_, (bindings.erase key).distinct⟩
    intro entry member same
    have kept := (List.mem_filter.mp member).2
    exact absurd same.symm (of_decide_eq_true kept)

/-- Binds the pairs in order, so that a later pair wins over an earlier one. -/
def ofList (pairs : List (κ × ν)) : Bindings κ ν :=
  pairs.foldl (fun bindings pair => bindings.insert pair.1 pair.2) empty

@[simp]
theorem get?_empty (key : κ) : (empty : Bindings κ ν).get? key = none := rfl

private theorem lookup_filter_ne (entries : List (κ × ν)) (removed key : κ) :
    (entries.filter fun entry => decide (entry.1 ≠ removed)).lookup key =
      if key = removed then none else entries.lookup key := by
  induction entries with
  | nil => simp
  | cons entry entries ih =>
      obtain ⟨candidate, value⟩ := entry
      by_cases candidateRemoved : candidate = removed
      · subst candidateRemoved
        by_cases sameKey : key = candidate
        · subst sameKey
          simpa using ih
        · have differs : (key == candidate) = false := beq_eq_false_iff_ne.mpr sameKey
          simpa [List.lookup_cons, sameKey, differs] using ih
      · by_cases sameKey : key = candidate
        · subst sameKey
          simp [candidateRemoved]
        · have differs : (key == candidate) = false := beq_eq_false_iff_ne.mpr sameKey
          simpa [List.lookup_cons, candidateRemoved, sameKey, differs] using ih

theorem get?_erase (bindings : Bindings κ ν) (removed key : κ) :
    (bindings.erase removed).get? key = if key = removed then none else bindings.get? key :=
  lookup_filter_ne bindings.entries removed key

theorem get?_insert (bindings : Bindings κ ν) (added key : κ) (value : ν) :
    (bindings.insert added value).get? key =
      if key = added then some value else bindings.get? key := by
  have erased := get?_erase bindings added key
  by_cases sameKey : key = added
  · subst sameKey
    simp [get?, insert]
  · have differs : (key == added) = false := beq_eq_false_iff_ne.mpr sameKey
    rw [if_neg sameKey] at erased ⊢
    rw [← erased]
    simp [get?, insert, List.lookup_cons, differs]

theorem forall_get?_insert {bindings : Bindings κ ν} {holds : κ → ν → Prop} {added : κ}
    {value : ν} (others : ∀ key found, bindings.get? key = some found → holds key found)
    (new : holds added value) :
    ∀ key found, (bindings.insert added value).get? key = some found → holds key found := by
  intro key found bound
  rw [get?_insert] at bound
  split at bound
  · next same =>
    cases bound
    exact same ▸ new
  · exact others key found bound

theorem get?_eq_some_iff {bindings : Bindings κ ν} {key : κ} {value : ν} :
    bindings.get? key = some value ↔ (key, value) ∈ bindings.entries := by
  obtain ⟨entries, distinct⟩ := bindings
  simp only [get?]
  induction entries with
  | nil => simp
  | cons entry entries ih =>
      obtain ⟨candidate, bound⟩ := entry
      obtain ⟨headDistinct, tailDistinct⟩ := List.pairwise_cons.mp distinct
      by_cases sameKey : key = candidate
      · subst sameKey
        have absent : (key, value) ∉ entries := fun member => headDistinct _ member rfl
        simp [absent, eq_comm]
      · have differs : (key == candidate) = false := beq_eq_false_iff_ne.mpr sameKey
        simp [List.lookup_cons, differs, sameKey, ih tailDistinct]

theorem get?_filter_eq_some_iff {bindings : Bindings κ ν} {keep : κ → ν → Bool} {key : κ}
    {value : ν} :
    (bindings.filter keep).get? key = some value ↔
      bindings.get? key = some value ∧ keep key value = true := by
  rw [get?_eq_some_iff, get?_eq_some_iff]
  exact List.mem_filter

end Bindings

end LinearIR
