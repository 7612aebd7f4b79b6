/-!
# Arrays that share storage

An array is a storage, known by a number, together with the position in it where the array
begins. Taking a tail keeps the storage and moves the beginning. A write moves the written array
to storage of its own, so that no other array can see it.
-/

set_option autoImplicit false

namespace LinearIR

structure SharedArray (V : Type) where
  /-- The number of the storage. Arrays of one number have the same stored elements. -/
  storage : Nat
  /-- All elements of the storage, including those before the beginning of the array. -/
  stored : List V
  /-- The position in the storage of the array's first element. -/
  start : Nat

namespace SharedArray

variable {V : Type}

def ofList (storage : Nat) (elements : List V) : SharedArray V where
  storage
  stored := elements
  start := 0

def toList (array : SharedArray V) : List V :=
  array.stored.drop array.start

def length (array : SharedArray V) : Nat :=
  array.stored.length - array.start

def isEmpty (array : SharedArray V) : Bool :=
  array.length == 0

def get? (array : SharedArray V) (index : Nat) : Option V :=
  array.toList[index]?

def entry (array : SharedArray V) (filler : V) (index : Nat) : V :=
  (array.get? index).getD filler

/-- The elements from an index on, in the same storage. Past the end nothing is left to share. -/
def tail (array : SharedArray V) (index : Nat) : SharedArray V :=
  if array.length ≤ index then ofList array.storage []
  else { array with start := array.start + index }

/-- Whether two arrays read the same storage. An empty storage is shared with nothing. -/
def sharesStorage (first second : SharedArray V) : Bool :=
  !first.stored.isEmpty && !second.stored.isEmpty && first.storage == second.storage

def unshare (array : SharedArray V) (fresh : Nat) : SharedArray V :=
  ofList fresh array.toList

/-- Writes one element. An array that is too short is first filled up to the index. -/
def set (array : SharedArray V) (fresh : Nat) (filler : V) (index : Nat) (value : V) :
    SharedArray V :=
  let own := array.unshare fresh
  let padding := List.replicate (index + 1 - own.stored.length) filler
  { own with stored := (own.stored ++ padding).set index value }

def push (array : SharedArray V) (fresh : Nat) (value : V) : SharedArray V :=
  let own := array.unshare fresh
  { own with stored := own.stored ++ [value] }

/-- The beginning lies inside the storage, or at the front of it. -/
def WellFormed (array : SharedArray V) : Prop :=
  array.start = 0 ∨ array.start < array.stored.length

theorem length_toList (array : SharedArray V) : array.toList.length = array.length := by
  simp [toList, length]

@[simp]
theorem toList_ofList (storage : Nat) (elements : List V) :
    (ofList storage elements).toList = elements := by
  simp [toList, ofList]

theorem toList_tail (array : SharedArray V) (index : Nat) :
    (array.tail index).toList = array.toList.drop index := by
  unfold tail
  split
  · next pastEnd =>
    rw [← length_toList] at pastEnd
    simp [List.drop_eq_nil_of_le pastEnd]
  · simp [toList, Nat.add_comm]

theorem toList_push (array : SharedArray V) (fresh : Nat) (value : V) :
    (array.push fresh value).toList = array.toList ++ [value] := by
  simp [push, unshare, toList, ofList]

theorem toList_set (array : SharedArray V) (fresh : Nat) (filler : V) (index : Nat) (value : V) :
    (array.set fresh filler index value).toList =
      (array.toList ++ List.replicate (index + 1 - array.length) filler).set index value := by
  rw [← length_toList]
  simp [set, unshare, toList, ofList]

end SharedArray

end LinearIR
