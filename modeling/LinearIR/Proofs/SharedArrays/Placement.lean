import Mathlib.Logic.Function.Basic
import LinearIR.SharedArray.Pool

/-!
# Where arrays are stored

The storages of a pool are a memory. Whatever has elements in its storage reads them there, and
begins inside them. No operation overwrites a storage that has been handed out, so an array that
is not itself written reads what it read before.
-/

set_option autoImplicit false

namespace LinearIR

variable {V : Type}

namespace SharedArray

structure Placed (array : SharedArray V) (memory : Nat → List V) (next : Nat) : Prop where
  storage_lt : array.storage < next
  stored_eq : array.stored = [] ∨ array.stored = memory array.storage
  wellFormed : array.WellFormed

theorem WellFormed.start_le {array : SharedArray V} (wellFormed : array.WellFormed) :
    array.start ≤ array.stored.length := by
  rcases wellFormed with front | inside
  · rw [front]
    exact Nat.zero_le _
  · exact Nat.le_of_lt inside

theorem start_add_lt {array : SharedArray V} {index : Nat} (inside : index < array.length) :
    array.start + index < array.stored.length := by
  unfold length at inside
  omega

theorem Placed.tail {array : SharedArray V} {memory : Nat → List V} {next : Nat}
    (placed : array.Placed memory next) (index : Nat) :
    (array.tail index).Placed memory next := by
  unfold SharedArray.tail
  split
  · exact ⟨placed.storage_lt, .inl rfl, .inl rfl⟩
  · next inside =>
    exact ⟨placed.storage_lt, placed.stored_eq, .inr (start_add_lt (Nat.lt_of_not_le inside))⟩

theorem placed_fresh {array : SharedArray V} {next : Nat} (fresh : array.storage = next)
    (front : array.start = 0) (memory : Nat → List V) :
    array.Placed (Function.update memory next array.stored) (next + 1) := by
  refine ⟨Nat.lt_succ_of_le (Nat.le_of_eq fresh), .inr ?_, .inl front⟩
  rw [fresh, Function.update_self]

theorem Placed.grow {array : SharedArray V} {memory : Nat → List V} {next : Nat}
    (placed : array.Placed memory next) (stored : List V) :
    array.Placed (Function.update memory next stored) (next + 1) := by
  refine ⟨Nat.lt_succ_of_lt placed.storage_lt, ?_, placed.wellFormed⟩
  rw [Function.update_of_ne (Nat.ne_of_lt placed.storage_lt)]
  exact placed.stored_eq

end SharedArray

namespace ArrayPool

variable {pool : ArrayPool V} {memory : Nat → List V}

def Placed (pool : ArrayPool V) (memory : Nat → List V) : Prop :=
  ∀ name array, pool.get? name = some array → array.Placed memory pool.nextStorage

theorem placed_empty (memory : Nat → List V) : (empty : ArrayPool V).Placed memory := by
  intro name array bound
  cases bound

theorem placed_insert {arrays : Bindings String (SharedArray V)} {next : Nat}
    (others : ∀ name array, arrays.get? name = some array → array.Placed memory next)
    {array : SharedArray V} (placed : array.Placed memory next) (target : String) :
    ArrayPool.Placed ⟨arrays.insert target array, next⟩ memory :=
  Bindings.forall_get?_insert others placed

theorem Placed.bindFresh (placed : pool.Placed memory) {array : SharedArray V}
    (fresh : array.storage = pool.nextStorage) (front : array.start = 0) (name : String) :
    (pool.bindFresh name array).Placed
      (Function.update memory pool.nextStorage array.stored) := by
  refine placed_insert ?_ (SharedArray.placed_fresh fresh front memory) name
  intro other found bound
  exact (placed other found bound).grow array.stored

theorem Placed.drop (placed : pool.Placed memory) (removed : String) :
    ArrayPool.Placed { pool with arrays := pool.arrays.erase removed } memory := by
  intro name array bound
  have entry : (pool.arrays.erase removed).get? name = some array := bound
  rw [Bindings.get?_erase] at entry
  split at entry
  · cases entry
  · exact placed name array entry

/-- The name that an operation may bind anew. -/
def Operation.target : Operation V → String
  | .create name _ => name
  | .clone _ target => target
  | .tail _ _ target => target
  | .set name _ _ => name
  | .push name _ => name
  | .drop name => name

/-- The pools that an operation on `target` can lead to. -/
inductive Leads (pool : ArrayPool V) (target : String) : ArrayPool V → Prop where
  | nowhere : Leads pool target pool
  | written {array : SharedArray V} (fresh : array.storage = pool.nextStorage)
      (front : array.start = 0) : Leads pool target (pool.bindFresh target array)
  | cloned {name : String} {array : SharedArray V} (bound : pool.get? name = some array) :
      Leads pool target { pool with arrays := pool.arrays.insert target array }
  | tail {name : String} {array : SharedArray V} (bound : pool.get? name = some array)
      (index : Nat) :
      Leads pool target { pool with arrays := pool.arrays.insert target (array.tail index) }
  | dropped : Leads pool target { pool with arrays := pool.arrays.erase target }

theorem leads_apply (pool : ArrayPool V) (filler : V) (operation : Operation V) :
    pool.Leads operation.target (pool.apply filler operation) := by
  cases operation with
  | create name elements => exact .written rfl rfl
  | clone name target =>
      cases bound : pool.get? name with
      | none => simpa only [apply, bound] using .nowhere
      | some array => simpa only [apply, bound] using .cloned bound
  | tail name index target =>
      cases bound : pool.get? name with
      | none => simpa only [apply, bound] using .nowhere
      | some array => simpa only [apply, bound] using .tail bound index
  | set name index value =>
      cases bound : pool.get? name with
      | none => simpa only [apply, bound] using .nowhere
      | some array => simpa only [apply, bound] using .written rfl rfl
  | push name value =>
      cases bound : pool.get? name with
      | none => simpa only [apply, bound] using .nowhere
      | some array => simpa only [apply, bound] using .written rfl rfl
  | drop name => exact .dropped

theorem get?_insert_of_ne {arrays : Bindings String (SharedArray V)} {next : Nat}
    {name target : String} (other : name ≠ target) (array : SharedArray V) :
    get? ⟨arrays.insert target array, next⟩ name = arrays.get? name := by
  unfold get?
  rw [Bindings.get?_insert, if_neg other]

theorem get?_erase_of_ne {arrays : Bindings String (SharedArray V)} {next : Nat}
    {name target : String} (other : name ≠ target) :
    get? ⟨arrays.erase target, next⟩ name = arrays.get? name := by
  unfold get?
  rw [Bindings.get?_erase, if_neg other]

theorem get?_insert_self {arrays : Bindings String (SharedArray V)} {next : Nat}
    (target : String) (array : SharedArray V) :
    get? ⟨arrays.insert target array, next⟩ target = some array := by
  unfold get?
  rw [Bindings.get?_insert, if_pos rfl]

theorem get?_erase_self {arrays : Bindings String (SharedArray V)} {next : Nat}
    (target : String) : get? ⟨arrays.erase target, next⟩ target = none := by
  unfold get?
  rw [Bindings.get?_erase, if_pos rfl]

theorem Leads.get?_of_ne {pool' : ArrayPool V} {name target : String}
    (leads : pool.Leads target pool') (other : name ≠ target) :
    pool'.get? name = pool.get? name := by
  cases leads with
  | nowhere => rfl
  | written fresh front => exact get?_insert_of_ne other _
  | cloned bound => exact get?_insert_of_ne other _
  | tail bound index => exact get?_insert_of_ne other _
  | dropped => exact get?_erase_of_ne other

/-- A storage that was not handed out before may be written, and no other. -/
theorem Leads.placed {pool' : ArrayPool V} {target : String} (leads : pool.Leads target pool')
    (placed : pool.Placed memory) :
    ∃ memory', (∀ storage < pool.nextStorage, memory' storage = memory storage) ∧
      pool'.Placed memory' := by
  cases leads with
  | nowhere => exact ⟨memory, fun _ _ => rfl, placed⟩
  | @written array fresh front =>
      refine ⟨_, ?_, placed.bindFresh fresh front target⟩
      intro storage before
      exact Function.update_of_ne (Nat.ne_of_lt before) array.stored memory
  | cloned bound =>
      exact ⟨memory, fun _ _ => rfl, placed_insert placed (placed _ _ bound) target⟩
  | tail bound index =>
      exact ⟨memory, fun _ _ => rfl,
        placed_insert placed ((placed _ _ bound).tail index) target⟩
  | dropped => exact ⟨memory, fun _ _ => rfl, placed.drop target⟩

theorem Placed.applyAll (placed : pool.Placed memory) (filler : V)
    (operations : List (Operation V)) :
    ∃ memory', (pool.applyAll filler operations).Placed memory' := by
  induction operations generalizing pool memory with
  | nil => exact ⟨memory, placed⟩
  | cons operation rest ih =>
      obtain ⟨memory', -, next⟩ := (pool.leads_apply filler operation).placed placed
      exact ih next

end ArrayPool

end LinearIR
