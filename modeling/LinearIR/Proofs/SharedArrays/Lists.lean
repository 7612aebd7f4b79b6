import LinearIR.SharedArray.Values
import LinearIR.Proofs.SharedArrays.Placement

/-!
# Shared arrays read as independent lists

A pool is compared with names that hold a list each, so that nothing can be shared. The list of a
name is what its array reads, and every operation moves pool and lists together.
-/

set_option autoImplicit false

namespace LinearIR

variable {V : Type}

/-- Replaces the element at an index. A list that is too short is first filled up to there. -/
def writeAt (filler : V) (list : List V) (index : Nat) (value : V) : List V :=
  if index < list.length then list.set index value
  else list ++ List.replicate (index - list.length) filler ++ [value]

theorem writeAt_eq_set (filler : V) (list : List V) (index : Nat) (value : V) :
    writeAt filler list index value =
      (list ++ List.replicate (index + 1 - list.length) filler).set index value := by
  unfold writeAt
  split
  · next inside =>
    rw [Nat.sub_eq_zero_of_le inside]
    simp
  · next outside =>
    -- The padding is one longer than the gap, and its last place is the one that is written.
    have long : list.length ≤ index := Nat.le_of_not_lt outside
    have filled : (list ++ List.replicate (index - list.length) filler).length = index := by
      rw [List.length_append, List.length_replicate, Nat.add_sub_cancel' long]
    rw [Nat.succ_sub long, List.replicate_succ', ← List.append_assoc,
      List.set_append_right _ _ (Nat.le_of_eq filled), filled, Nat.sub_self, List.set_cons_zero]

namespace ArrayPool

def Operation.onLists (filler : V) (lists : String → Option (List V)) :
    Operation V → String → Option (List V)
  | .create name elements => Function.update lists name (some elements)
  | .clone name target =>
    match lists name with
    | some list => Function.update lists target (some list)
    | none => lists
  | .tail name index target =>
    match lists name with
    | some list => Function.update lists target (some (list.drop index))
    | none => lists
  | .set name index value =>
    match lists name with
    | some list => Function.update lists name (some (writeAt filler list index value))
    | none => lists
  | .push name value =>
    match lists name with
    | some list => Function.update lists name (some (list ++ [value]))
    | none => lists
  | .drop name => Function.update lists name none

/-- The lists after the operations, none of which is bound at first. -/
def Operation.listsAfter (filler : V) (operations : List (Operation V)) :
    String → Option (List V) :=
  operations.foldl (onLists filler) fun _ => none

def lists (pool : ArrayPool V) (name : String) : Option (List V) :=
  (pool.get? name).map SharedArray.toList

theorem lists_insert (arrays : Bindings String (SharedArray V)) (next next' : Nat)
    (target : String) (array : SharedArray V) :
    lists ⟨arrays.insert target array, next⟩ =
      Function.update (lists ⟨arrays, next'⟩) target (some array.toList) := by
  funext name
  simp only [lists, get?, Bindings.get?_insert, Function.update_apply]
  split <;> rfl

theorem lists_bindFresh (pool : ArrayPool V) (name : String) (array : SharedArray V) :
    (pool.bindFresh name array).lists = Function.update pool.lists name (some array.toList) :=
  lists_insert pool.arrays _ _ name array

theorem lists_erase (pool : ArrayPool V) (removed : String) :
    lists { pool with arrays := pool.arrays.erase removed } =
      Function.update pool.lists removed none := by
  funext name
  simp only [lists, get?, Bindings.get?_erase, Function.update_apply]
  split <;> rfl

theorem lists_of_bound {pool : ArrayPool V} {name : String} {array : SharedArray V}
    (bound : pool.get? name = some array) : pool.lists name = some array.toList := by
  rw [lists, bound, Option.map_some]

theorem lists_of_unbound {pool : ArrayPool V} {name : String} (unbound : pool.get? name = none) :
    pool.lists name = none := by
  rw [lists, unbound, Option.map_none]

theorem lists_apply (pool : ArrayPool V) (filler : V) (operation : Operation V) :
    (pool.apply filler operation).lists = operation.onLists filler pool.lists := by
  cases operation with
  | create name elements =>
      simp only [apply, Operation.onLists, lists_bindFresh, SharedArray.toList_ofList]
  | clone name target =>
      cases bound : pool.get? name with
      | none => simp only [apply, Operation.onLists, bound, lists_of_unbound bound]
      | some array =>
          simp only [apply, Operation.onLists, bound, lists_of_bound bound]
          exact lists_insert ..
  | tail name index target =>
      cases bound : pool.get? name with
      | none => simp only [apply, Operation.onLists, bound, lists_of_unbound bound]
      | some array =>
          simp only [apply, Operation.onLists, bound, lists_of_bound bound]
          rw [← SharedArray.toList_tail]
          exact lists_insert ..
  | set name index value =>
      cases bound : pool.get? name with
      | none => simp only [apply, Operation.onLists, bound, lists_of_unbound bound]
      | some array =>
          simp only [apply, Operation.onLists, bound, lists_of_bound bound, lists_bindFresh]
          rw [SharedArray.toList_set, writeAt_eq_set, SharedArray.length_toList]
  | push name value =>
      cases bound : pool.get? name with
      | none => simp only [apply, Operation.onLists, bound, lists_of_unbound bound]
      | some array =>
          simp only [apply, Operation.onLists, bound, lists_of_bound bound, lists_bindFresh]
          rw [SharedArray.toList_push]
  | drop name => exact lists_erase pool name

theorem lists_applyAll (pool : ArrayPool V) (filler : V) (operations : List (Operation V)) :
    (pool.applyAll filler operations).lists =
      operations.foldl (Operation.onLists filler) pool.lists := by
  induction operations generalizing pool with
  | nil => rfl
  | cons operation rest ih =>
      rw [List.foldl_cons, ← lists_apply]
      exact ih (pool.apply filler operation)

end ArrayPool

/-! ## What is observed -/

/-- Every observation of the array gives what the list gives. -/
structure SharedArray.Shows (array : SharedArray Value) (list : List Value) : Prop where
  elements : array.toList = list
  length : array.length = list.length
  isEmpty : array.isEmpty = list.isEmpty
  get? : ∀ index, array.get? index = list[index]?
  entry : ∀ index, array.entry .nil index = list.getD index .nil
  text : array.text = (Value.array list).text

theorem SharedArray.shows_toList (array : SharedArray Value) : array.Shows array.toList where
  elements := rfl
  length := array.length_toList.symm
  isEmpty := by
    unfold isEmpty
    rw [← length_toList, Bool.eq_iff_iff, beq_iff_eq, List.isEmpty_iff_length_eq_zero]
  get? := fun index => rfl
  entry := fun index => (List.getD_eq_getElem?_getD ..).symm
  text := array.text_eq

structure SharedArray.InBounds (array : SharedArray V) : Prop where
  wellFormed : array.WellFormed
  start_le : array.start ≤ array.stored.length
  start_add_lt : ∀ index < array.length, array.start + index < array.stored.length

theorem SharedArray.WellFormed.inBounds {array : SharedArray V}
    (wellFormed : array.WellFormed) : array.InBounds :=
  ⟨wellFormed, wellFormed.start_le, fun _ => array.start_add_lt⟩

namespace ArrayPool

/-- The same names are bound, and observing the arrays tells no more than the lists do. -/
structure Shows (pool : ArrayPool Value) (lists : String → Option (List Value)) : Prop where
  bound : ∀ name, (pool.get? name).isSome = (lists name).isSome
  shows : ∀ name array list, pool.get? name = some array → lists name = some list →
    array.Shows list
  equals : ∀ first second array array' list list',
    pool.get? first = some array → pool.get? second = some array' →
    lists first = some list → lists second = some list' →
      array.equals array' = Value.allEqual list list'

theorem shows_lists (pool : ArrayPool Value) : pool.Shows pool.lists where
  bound := fun name => Option.isSome_map.symm
  shows := by
    intro name array list bound listed
    rw [lists_of_bound bound] at listed
    exact Option.some.inj listed ▸ array.shows_toList
  equals := by
    intro first second array array' list list' bound bound' listed listed'
    rw [lists_of_bound bound] at listed
    rw [lists_of_bound bound'] at listed'
    rw [← Option.some.inj listed, ← Option.some.inj listed']
    rfl

/-- The pool that operations build, in which positions that a write passes over hold nil. -/
def after (operations : List (Operation Value)) : ArrayPool Value :=
  (empty : ArrayPool Value).applyAll .nil operations

theorem after_append (operations : List (Operation Value)) (operation : Operation Value) :
    after (operations ++ [operation]) = (after operations).apply .nil operation := by
  unfold after applyAll
  rw [List.foldl_append, List.foldl_cons, List.foldl_nil]

theorem lists_after (operations : List (Operation Value)) :
    (after operations).lists = Operation.listsAfter .nil operations :=
  lists_applyAll (empty : ArrayPool Value) .nil operations

/-- However a pool is built, its arrays read as lists that share nothing, and no reading goes
past a storage. One more operation binds no name but its target and overwrites no storage. -/
theorem after_shows_listsAfter (operations : List (Operation Value))
    (operation : Operation Value) :
    (after operations).Shows (Operation.listsAfter .nil operations) ∧
      (∀ name array, (after operations).get? name = some array → array.InBounds) ∧
      (∀ name ≠ operation.target,
        (after (operations ++ [operation])).get? name = (after operations).get? name) ∧
      ∃ memory memory' : Nat → List Value,
        (after operations).Placed memory ∧ (after (operations ++ [operation])).Placed memory' ∧
          ∀ storage < (after operations).nextStorage, memory' storage = memory storage := by
  have leads := (after operations).leads_apply .nil operation
  obtain ⟨memory, placed⟩ :=
    (placed_empty fun _ => []).applyAll .nil operations
  obtain ⟨memory', kept, placed'⟩ := leads.placed placed
  rw [after_append]
  refine ⟨?_, ?_, ?_, memory, memory', placed, placed', kept⟩
  · rw [← lists_after]
    exact shows_lists _
  · intro name array bound
    exact (placed name array bound).wellFormed.inBounds
  · intro name other
    exact leads.get?_of_ne other

def tailBesideSource : List (Operation Value) :=
  [.create "source" [.scalar (.fixnum 1), .scalar (.fixnum 2)], .tail "source" 1 "rest",
    .set "source" 3 (.scalar (.str "far")), .push "rest" (.array [])]

theorem tailBesideSource_apart :
    ∃ source rest, (after tailBesideSource).get? "source" = some source ∧
      (after tailBesideSource).get? "rest" = some rest ∧
      source.Shows [.scalar (.fixnum 1), .scalar (.fixnum 2), .nil, .scalar (.str "far")] ∧
      rest.Shows [.scalar (.fixnum 2), .array []] ∧ source.InBounds ∧ rest.InBounds := by
  obtain ⟨shown, inBounds, -⟩ := after_shows_listsAfter tailBesideSource (.drop "source")
  exact ⟨_, _, rfl, rfl, shown.shows "source" _ _ rfl rfl, shown.shows "rest" _ _ rfl rfl,
    inBounds "source" _ rfl, inBounds "rest" _ rfl⟩

end ArrayPool

end LinearIR
