import LinearIR.Bindings
import LinearIR.SharedArray.Basic

/-!
# Named arrays

A pool binds names to arrays and numbers their storages. Every operation names the array it
works on. One that names an unbound array changes nothing.
-/

set_option autoImplicit false

namespace LinearIR

structure ArrayPool (V : Type) where
  arrays : Bindings String (SharedArray V)
  /-- A number above those of all storages handed out so far. -/
  nextStorage : Nat

inductive ArrayPool.Operation (V : Type) where
  | create (name : String) (elements : List V)
  | clone (name target : String)
  | tail (name : String) (index : Nat) (target : String)
  | set (name : String) (index : Nat) (value : V)
  | push (name : String) (value : V)
  | drop (name : String)

namespace ArrayPool

variable {V : Type}

def empty : ArrayPool V where
  arrays := ∅
  nextStorage := 0

def get? (pool : ArrayPool V) (name : String) : Option (SharedArray V) :=
  pool.arrays.get? name

def bindFresh (pool : ArrayPool V) (name : String) (array : SharedArray V) :
    ArrayPool V where
  arrays := pool.arrays.insert name array
  nextStorage := pool.nextStorage + 1

/-- One operation. Positions that a write passes over are filled with `filler`. -/
def apply (pool : ArrayPool V) (filler : V) : Operation V → ArrayPool V
  | .create name elements => pool.bindFresh name (.ofList pool.nextStorage elements)
  | .clone name target =>
    match pool.get? name with
    | some array => { pool with arrays := pool.arrays.insert target array }
    | none => pool
  | .tail name index target =>
    match pool.get? name with
    | some array => { pool with arrays := pool.arrays.insert target (array.tail index) }
    | none => pool
  | .set name index value =>
    match pool.get? name with
    | some array => pool.bindFresh name (array.set pool.nextStorage filler index value)
    | none => pool
  | .push name value =>
    match pool.get? name with
    | some array => pool.bindFresh name (array.push pool.nextStorage value)
    | none => pool
  | .drop name => { pool with arrays := pool.arrays.erase name }

def applyAll (pool : ArrayPool V) (filler : V) (operations : List (Operation V)) : ArrayPool V :=
  operations.foldl (fun pool operation => pool.apply filler operation) pool

def shares (pool : ArrayPool V) (first second : String) : Bool :=
  match pool.get? first, pool.get? second with
  | some first, some second => first.sharesStorage second
  | _, _ => false

end ArrayPool

end LinearIR
