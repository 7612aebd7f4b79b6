import LinearIR.Proofs.SharedArrays.Placement
import LinearIR.Value.Basic

/-!
# Which arrays share storage

A write moves an array to a storage that no array is in. An array that is alone in its storage
may as well be written where it is: nothing that is observed of the arrays depends on it. So the
laws of sharing are stated for every way in which the storages of a history can be chosen, of
which the numbering of a pool is one.
-/

set_option autoImplicit false

namespace LinearIR

variable {V : Type}

theorem SharedArray.WellFormed.stored_eq_nil_iff {array : SharedArray V}
    (wellFormed : array.WellFormed) : array.stored = [] ↔ array.isEmpty = true := by
  unfold WellFormed at wellFormed
  unfold isEmpty length
  rw [beq_iff_eq, ← List.length_eq_zero_iff]
  omega

theorem SharedArray.sharesStorage_iff {first second : SharedArray V} :
    first.sharesStorage second = true ↔
      first.stored ≠ [] ∧ second.stored ≠ [] ∧ first.storage = second.storage := by
  simp [sharesStorage, and_assoc]

namespace ArrayPool

variable {pool pool' : ArrayPool V}

/-- The array of a name is in a storage. An array with nothing stored is in none. -/
def Occupies (pool : ArrayPool V) (name : String) (storage : Nat) : Prop :=
  ∃ array, pool.get? name = some array ∧ array.stored ≠ [] ∧ array.storage = storage

theorem Occupies.unique {name : String} {storage storage' : Nat}
    (occupies : pool.Occupies name storage) (occupies' : pool.Occupies name storage') :
    storage = storage' := by
  obtain ⟨array, bound, -, rfl⟩ := occupies
  obtain ⟨array', bound', -, rfl⟩ := occupies'
  rw [bound] at bound'
  cases bound'
  rfl

theorem shares_iff {first second : String} :
    pool.shares first second = true ↔
      ∃ storage, pool.Occupies first storage ∧ pool.Occupies second storage := by
  unfold shares
  constructor
  · intro shared
    split at shared
    · next array array' bound bound' =>
      obtain ⟨filled, filled', same⟩ := SharedArray.sharesStorage_iff.mp shared
      exact ⟨_, ⟨array, bound, filled, rfl⟩, array', bound', filled', same.symm⟩
    · cases shared
  · intro together
    obtain ⟨storage, ⟨array, bound, filled, rfl⟩, array', bound', filled', same⟩ := together
    rw [bound, bound']
    exact SharedArray.sharesStorage_iff.mpr ⟨filled, filled', same.symm⟩

/-! ## Histories -/

/-- Where a write may leave the array of a name: in its storage, if the array begins there and
no other is in it, or in a storage that no array is in. -/
inductive Settles (pool : ArrayPool V) (name : String) (array : SharedArray V) : Nat → Prop where
  | stays : array.start = 0 → (∀ other, pool.Occupies other array.storage → other = name) →
      Settles pool name array array.storage
  | moves {storage : Nat} : (∀ other, ¬ pool.Occupies other storage) →
      Settles pool name array storage

/-- The name whose array an operation needs. -/
def Operation.source? : Operation V → Option String
  | .create .. | .drop _ => none
  | .clone name _ | .tail name _ _ | .set name _ _ | .push name _ => some name

/-- The pools that an operation may lead to. Arrays that are built get a storage that no array is
in, clones and tails keep the storage, and writes settle. -/
inductive Step (pool : ArrayPool V) (filler : V) : Operation V → ArrayPool V → Prop where
  | create {name elements storage next} : (∀ other, ¬ pool.Occupies other storage) →
      Step pool filler (.create name elements)
        ⟨pool.arrays.insert name (.ofList storage elements), next⟩
  | clone {name target array next} : pool.get? name = some array →
      Step pool filler (.clone name target) ⟨pool.arrays.insert target array, next⟩
  | tail {name index target array next} : pool.get? name = some array →
      Step pool filler (.tail name index target)
        ⟨pool.arrays.insert target (array.tail index), next⟩
  | set {name index value array storage next} : pool.get? name = some array →
      pool.Settles name array storage →
      Step pool filler (.set name index value)
        ⟨pool.arrays.insert name (array.set storage filler index value), next⟩
  | push {name value array storage next} : pool.get? name = some array →
      pool.Settles name array storage →
      Step pool filler (.push name value)
        ⟨pool.arrays.insert name (array.push storage value), next⟩
  | drop {name next} : Step pool filler (.drop name) ⟨pool.arrays.erase name, next⟩
  | unbound {operation name} : operation.source? = some name → pool.get? name = none →
      Step pool filler operation pool

inductive Runs (filler : V) : ArrayPool V → List (Operation V) → ArrayPool V → Prop where
  | done {last} : Runs filler last [] last
  | next {first middle last operation rest} : first.Step filler operation middle →
      Runs filler middle rest last → Runs filler first (operation :: rest) last

theorem Placed.not_occupies_next {memory : Nat → List V} (placed : pool.Placed memory)
    (name : String) : ¬ pool.Occupies name pool.nextStorage := by
  intro occupies
  obtain ⟨array, bound, -, same⟩ := occupies
  exact Nat.ne_of_lt (placed name array bound).storage_lt same

/-- A pool numbers its storages in one of the ways that are allowed. -/
theorem Placed.step_apply {memory : Nat → List V} (placed : pool.Placed memory) (filler : V)
    (operation : Operation V) : pool.Step filler operation (pool.apply filler operation) := by
  cases operation with
  | create name elements => exact .create placed.not_occupies_next
  | clone name target =>
      cases bound : pool.get? name with
      | none => simpa only [apply, bound] using .unbound rfl bound
      | some array => simpa only [apply, bound] using .clone bound
  | tail name index target =>
      cases bound : pool.get? name with
      | none => simpa only [apply, bound] using .unbound rfl bound
      | some array => simpa only [apply, bound] using .tail bound
  | set name index value =>
      cases bound : pool.get? name with
      | none => simpa only [apply, bound] using .unbound rfl bound
      | some array =>
          simpa only [apply, bound] using .set bound (.moves placed.not_occupies_next)
  | push name value =>
      cases bound : pool.get? name with
      | none => simpa only [apply, bound] using .unbound rfl bound
      | some array =>
          simpa only [apply, bound] using .push bound (.moves placed.not_occupies_next)
  | drop name => exact .drop

theorem Placed.runs_applyAll {memory : Nat → List V} (placed : pool.Placed memory) (filler : V)
    (operations : List (Operation V)) :
    Runs filler pool operations (pool.applyAll filler operations) := by
  induction operations generalizing pool memory with
  | nil => exact .done
  | cons operation rest ih =>
      obtain ⟨memory', -, next⟩ := (pool.leads_apply filler operation).placed placed
      exact .next (placed.step_apply filler operation) (ih next)

/-! ## What a step does to the arrays -/

/-- The pools that differ in the array of `target` only. If there is one afterwards, it is alone
in its storage, or it is another array or a tail of one. -/
inductive Rebinds (pool : ArrayPool V) (target : String) : ArrayPool V → Prop where
  | nowhere : Rebinds pool target pool
  | alone {array next} : array.start = 0 →
      (∀ other ≠ target, ¬ pool.Occupies other array.storage) →
      Rebinds pool target ⟨pool.arrays.insert target array, next⟩
  | cloned {name array next} : pool.get? name = some array →
      Rebinds pool target ⟨pool.arrays.insert target array, next⟩
  | cut {name array index next} : pool.get? name = some array →
      Rebinds pool target ⟨pool.arrays.insert target (array.tail index), next⟩
  | dropped {next} : Rebinds pool target ⟨pool.arrays.erase target, next⟩

theorem Settles.alone {name : String} {array : SharedArray V} {storage : Nat}
    (settles : pool.Settles name array storage) {other : String} (differs : other ≠ name) :
    ¬ pool.Occupies other storage := by
  cases settles with
  | stays _ sole => exact fun occupies => differs (sole other occupies)
  | moves unoccupied => exact unoccupied other

theorem Step.rebinds {filler : V} {operation : Operation V}
    (step : pool.Step filler operation pool') : pool.Rebinds operation.target pool' := by
  cases step with
  | create unoccupied => exact .alone rfl fun other _ => unoccupied other
  | clone bound => exact .cloned bound
  | tail bound => exact .cut bound
  | set bound settles => exact .alone rfl fun _ differs => settles.alone differs
  | push bound settles => exact .alone rfl fun _ differs => settles.alone differs
  | drop => exact .dropped
  | unbound => exact .nowhere

theorem Rebinds.get?_of_ne {name target : String} (rebinds : pool.Rebinds target pool')
    (other : name ≠ target) : pool'.get? name = pool.get? name := by
  cases rebinds with
  | nowhere => rfl
  | alone | cloned | cut => exact get?_insert_of_ne other _
  | dropped => exact get?_erase_of_ne other

/-! ## What arrays in one storage read -/

/-- Every array reads what the memory has in its storage, and begins inside it. -/
def Backed (pool : ArrayPool V) (memory : Nat → List V) : Prop :=
  ∀ name array, pool.get? name = some array →
    array.WellFormed ∧ (array.stored ≠ [] → memory array.storage = array.stored)

theorem backed_empty (memory : Nat → List V) : (empty : ArrayPool V).Backed memory := by
  intro name array bound
  cases bound

theorem Backed.tail {memory : Nat → List V} (backed : pool.Backed memory) {name : String}
    {array : SharedArray V} (bound : pool.get? name = some array) (index : Nat) :
    (array.tail index).WellFormed ∧
      ((array.tail index).stored ≠ [] →
        memory (array.tail index).storage = (array.tail index).stored) := by
  unfold SharedArray.tail
  split
  · exact ⟨.inl rfl, fun filled => absurd rfl filled⟩
  · next inside =>
    exact ⟨.inr (SharedArray.start_add_lt (Nat.lt_of_not_le inside)), (backed name array bound).2⟩

theorem Rebinds.backed {memory : Nat → List V} {target : String}
    (rebinds : pool.Rebinds target pool') (backed : pool.Backed memory) :
    ∃ memory', pool'.Backed memory' := by
  have others : ∀ memory' : Nat → List V,
      (∀ name ≠ target, ∀ storage, pool.Occupies name storage →
        memory' storage = memory storage) →
      (∀ array, pool'.get? target = some array →
        array.WellFormed ∧ (array.stored ≠ [] → memory' array.storage = array.stored)) →
      pool'.Backed memory' := by
    intro memory' kept new name array bound
    by_cases same : name = target
    · subst same
      exact new array bound
    · rw [rebinds.get?_of_ne same] at bound
      obtain ⟨wellFormed, backs⟩ := backed name array bound
      refine ⟨wellFormed, fun filled => ?_⟩
      rw [kept name same array.storage ⟨array, bound, filled, rfl⟩, backs filled]
  cases rebinds with
  | nowhere => exact ⟨memory, backed⟩
  | @alone array _ front alone =>
      -- Only the target can be in the storage that is overwritten.
      refine ⟨Function.update memory array.storage array.stored, others _ ?_ ?_⟩
      · intro name differs storage occupies
        refine Function.update_of_ne (fun same => ?_) _ _
        exact alone name differs (same ▸ occupies)
      · intro found bound
        rw [get?_insert_self] at bound
        cases bound
        exact ⟨.inl front, fun _ => Function.update_self ..⟩
  | cloned bound =>
      refine ⟨memory, others memory (fun _ _ _ _ => rfl) fun found boundAfter => ?_⟩
      rw [get?_insert_self] at boundAfter
      cases boundAfter
      exact backed _ _ bound
  | @cut _ _ index _ bound =>
      refine ⟨memory, others memory (fun _ _ _ _ => rfl) fun found boundAfter => ?_⟩
      rw [get?_insert_self] at boundAfter
      cases boundAfter
      exact backed.tail bound index
  | dropped =>
      refine ⟨memory, others memory (fun _ _ _ _ => rfl) fun found boundAfter => ?_⟩
      rw [get?_erase_self] at boundAfter
      cases boundAfter

/-- Arrays in one storage are cut from the same elements, so one reads the end of the other. -/
theorem Backed.suffix {memory : Nat → List V} (backed : pool.Backed memory)
    {first second : String} {array array' : SharedArray V}
    (bound : pool.get? first = some array) (bound' : pool.get? second = some array')
    (shared : pool.shares first second = true) :
    array.toList <:+ array'.toList ∨ array'.toList <:+ array.toList := by
  rw [shares, bound, bound'] at shared
  obtain ⟨filled, filled', same⟩ := SharedArray.sharesStorage_iff.mp shared
  have sameStored : array.stored = array'.stored := by
    rw [← (backed first array bound).2 filled, ← (backed second array' bound').2 filled', same]
  unfold SharedArray.toList
  rw [sameStored]
  rcases Nat.le_total array.start array'.start with earlier | later
  · exact .inr (List.drop_suffix_drop_left array'.stored earlier)
  · exact .inl (List.drop_suffix_drop_left array'.stored later)

theorem Runs.backed {filler : V} {operations : List (Operation V)}
    (runs : Runs filler pool operations pool') {memory : Nat → List V}
    (backed : pool.Backed memory) : ∃ memory', pool'.Backed memory' := by
  induction runs generalizing memory with
  | done => exact ⟨memory, backed⟩
  | next step _ ih =>
      obtain ⟨memory', next⟩ := step.rebinds.backed backed
      exact ih next

/-! ## The laws of sharing -/

/-- Arrays that share storage form classes, to which exactly the arrays that are not empty belong,
and of two arrays of a class one reads the end of the other. -/
structure SharesInClasses (pool : ArrayPool V) : Prop where
  symm : ∀ first second, pool.shares first second = true → pool.shares second first = true
  trans : ∀ first second third, pool.shares first second = true →
    pool.shares second third = true → pool.shares first third = true
  self_iff : ∀ name, pool.shares name name = true ↔
    ∃ array, pool.get? name = some array ∧ array.isEmpty = false
  suffix : ∀ first second array array', pool.get? first = some array →
    pool.get? second = some array' → pool.shares first second = true →
      array.toList <:+ array'.toList ∨ array'.toList <:+ array.toList

theorem Backed.occupies {memory : Nat → List V} (backed : pool.Backed memory) {name : String}
    {array : SharedArray V} (bound : pool.get? name = some array)
    (filled : array.isEmpty = false) : pool.Occupies name array.storage := by
  refine ⟨array, bound, fun nothing => ?_, rfl⟩
  rw [(backed name array bound).1.stored_eq_nil_iff, filled] at nothing
  cases nothing

theorem Backed.sharesInClasses {memory : Nat → List V} (backed : pool.Backed memory) :
    pool.SharesInClasses where
  symm first second shared := by
    obtain ⟨storage, occupies, occupies'⟩ := shares_iff.mp shared
    exact shares_iff.mpr ⟨storage, occupies', occupies⟩
  trans first second third shared shared' := by
    obtain ⟨storage, occupies, between⟩ := shares_iff.mp shared
    obtain ⟨storage', between', occupies'⟩ := shares_iff.mp shared'
    exact shares_iff.mpr ⟨storage, occupies, between.unique between' ▸ occupies'⟩
  self_iff name := by
    constructor
    · intro shared
      obtain ⟨_, ⟨array, bound, filled, -⟩, -⟩ := shares_iff.mp shared
      refine ⟨array, bound, ?_⟩
      rw [← Bool.not_eq_true, ← (backed name array bound).1.stored_eq_nil_iff]
      exact filled
    · intro held
      obtain ⟨array, bound, filled⟩ := held
      exact shares_iff.mpr ⟨_, backed.occupies bound filled, backed.occupies bound filled⟩
  suffix _ _ _ _ bound bound' shared := backed.suffix bound bound' shared

/-- Whom the target of an operation shares storage with afterwards. -/
def Operation.SharesAfter (pool pool' : ArrayPool V) : Operation V → Prop
  | .create name _ => ∀ other ≠ name, pool'.shares name other = false
  | .clone name target => ∀ array, pool.get? name = some array → array.isEmpty = false →
      pool'.shares name target = true
  | .tail name index target => ∀ array, pool.get? name = some array →
      if index < array.length then pool'.shares name target = true
      else ∀ other, pool'.shares target other = false
  | .set name _ _ | .push name _ => ∀ other ≠ name, pool'.shares name other = false
  | .drop name => ∀ other, pool'.shares name other = false

theorem Rebinds.occupies_iff {target name : String} (rebinds : pool.Rebinds target pool')
    (other : name ≠ target) (storage : Nat) :
    pool'.Occupies name storage ↔ pool.Occupies name storage := by
  unfold Occupies
  rw [rebinds.get?_of_ne other]

theorem Rebinds.shares_eq {target first second : String} (rebinds : pool.Rebinds target pool')
    (firstOther : first ≠ target) (secondOther : second ≠ target) :
    pool'.shares first second = pool.shares first second := by
  rw [Bool.eq_iff_iff, shares_iff, shares_iff]
  simp only [rebinds.occupies_iff firstOther, rebinds.occupies_iff secondOther]

theorem shares_of_unbound {name : String} (unbound : pool.get? name = none) (other : String) :
    pool.shares name other = false := by
  unfold shares
  rw [unbound]

theorem shares_insert_alone {target : String} {array : SharedArray V} {next : Nat}
    (front : array.start = 0) (alone : ∀ other ≠ target, ¬ pool.Occupies other array.storage)
    {other : String} (differs : other ≠ target) :
    shares ⟨pool.arrays.insert target array, next⟩ target other = false := by
  have rebinds : pool.Rebinds target ⟨pool.arrays.insert target array, next⟩ :=
    .alone front alone
  rw [Bool.eq_false_iff, Ne, shares_iff]
  intro together
  obtain ⟨storage, ⟨found, bound, -, same⟩, occupies⟩ := together
  rw [get?_insert_self] at bound
  cases bound
  rw [rebinds.occupies_iff differs, ← same] at occupies
  exact alone other differs occupies

theorem shares_insert_kept {name target : String} {array kept : SharedArray V} {next : Nat}
    (bound : pool.get? name = some array) (filled : array.stored ≠ [])
    (sameStored : kept.stored = array.stored) (sameStorage : kept.storage = array.storage) :
    shares ⟨pool.arrays.insert target kept, next⟩ name target = true := by
  have new : Occupies ⟨pool.arrays.insert target kept, next⟩ target array.storage :=
    ⟨kept, get?_insert_self target kept, sameStored ▸ filled, sameStorage⟩
  refine shares_iff.mpr ⟨array.storage, ?_, new⟩
  by_cases same : name = target
  · exact same ▸ new
  · exact ⟨array, (get?_insert_of_ne same kept).trans bound, filled, rfl⟩

theorem shares_insert_tail {name target : String} {array : SharedArray V} {index next : Nat}
    (bound : pool.get? name = some array) :
    if index < array.length then
      shares ⟨pool.arrays.insert target (array.tail index), next⟩ name target = true
    else ∀ other,
      shares ⟨pool.arrays.insert target (array.tail index), next⟩ target other = false := by
  split
  · next inside =>
    have filled : array.stored ≠ [] := by
      intro nothing
      simp [SharedArray.length, nothing] at inside
    have cut : array.tail index = { array with start := array.start + index } :=
      if_neg (Nat.not_le.mpr inside)
    exact shares_insert_kept bound filled (by rw [cut]) (by rw [cut])
  · next pastEnd =>
    intro other
    have cut : array.tail index = .ofList array.storage [] := if_pos (Nat.not_lt.mp pastEnd)
    rw [Bool.eq_false_iff, Ne, shares_iff]
    intro together
    obtain ⟨storage, ⟨found, boundAfter, filled, -⟩, -⟩ := together
    rw [get?_insert_self, cut] at boundAfter
    cases boundAfter
    exact filled rfl

theorem Step.sharesAfter {filler : V} {operation : Operation V} {memory : Nat → List V}
    (step : pool.Step filler operation pool') (backed : pool.Backed memory) :
    operation.SharesAfter pool pool' := by
  cases step with
  | create unoccupied =>
      exact fun other differs =>
        shares_insert_alone rfl (fun other _ => unoccupied other) differs
  | @clone name target array next bound =>
      intro found held filled
      cases bound.symm.trans held
      obtain ⟨_, held', notNil, -⟩ := backed.occupies bound filled
      cases bound.symm.trans held'
      exact shares_insert_kept bound notNil rfl rfl
  | @tail name index target array next bound =>
      intro found held
      cases bound.symm.trans held
      exact shares_insert_tail bound
  | set bound settles =>
      exact fun other differs =>
        shares_insert_alone rfl (fun _ others => settles.alone others) differs
  | push bound settles =>
      exact fun other differs =>
        shares_insert_alone rfl (fun _ others => settles.alone others) differs
  | drop => exact fun other => shares_of_unbound (get?_erase_self _) other
  | @unbound operation name source absent =>
      cases operation with
      | create | drop => cases source
      | clone | tail =>
          cases source
          intro found held
          rw [absent] at held
          cases held
      | set | push =>
          cases source
          exact fun other _ => shares_of_unbound absent other

/-- However the storages of a history are chosen, arrays share storage in classes, and each
further operation puts its target where it says and leaves all other sharing as it was. A clone
shares with its source, and so does a tail that is not empty. An array that is built or written
shares with no other. The storages that a pool numbers are one of the choices. -/
theorem sharing_along_history (filler : V) (operations : List (Operation V)) :
    (Runs filler empty operations ((empty : ArrayPool V).applyAll filler operations) ∧
      ∀ operation, ((empty : ArrayPool V).applyAll filler operations).Step filler operation
        (((empty : ArrayPool V).applyAll filler operations).apply filler operation)) ∧
    ∀ pool, Runs filler empty operations pool →
      pool.SharesInClasses ∧
      ∀ operation pool', pool.Step filler operation pool' →
        operation.SharesAfter pool pool' ∧
        ∀ first ≠ operation.target, ∀ second ≠ operation.target,
          pool'.shares first second = pool.shares first second := by
  have placed : (empty : ArrayPool V).Placed fun _ => [] := placed_empty _
  refine ⟨⟨placed.runs_applyAll filler operations, fun operation => ?_⟩, ?_⟩
  · obtain ⟨memory, placedAfter⟩ := placed.applyAll filler operations
    exact placedAfter.step_apply filler operation
  · intro pool runs
    obtain ⟨memory, backed⟩ := runs.backed (backed_empty fun _ => [])
    refine ⟨backed.sharesInClasses, fun operation pool' step => ?_⟩
    refine ⟨step.sharesAfter backed, fun first firstOther second secondOther => ?_⟩
    exact step.rebinds.shares_eq firstOther secondOther

/-- The clone outlives its source, so it is alone in the storage when it is written. -/
def handedOver : List (Operation Value) :=
  [.create "a" [.nil], .clone "a" "b", .drop "a", .push "b" (.array []), .tail "b" 1 "c"]

/-- Written in place, the clone shares with its tail until it is written again. -/
theorem handedOver_shares : ∃ pool b c,
    Runs Value.nil empty handedOver pool ∧ pool.get? "b" = some b ∧ pool.get? "c" = some c ∧
      b.storage = 0 ∧ b.toList = [.nil, .array []] ∧
      (b.toList <:+ c.toList ∨ c.toList <:+ b.toList) ∧
      pool.shares "c" "b" = true ∧
      ∀ pool', pool.Step Value.nil (.set "b" 0 (.array [])) pool' →
        pool'.shares "b" "c" = false := by
  have alone : ∀ other, Occupies ⟨((∅ : Bindings String (SharedArray Value)).insert "a"
      (.ofList 0 [.nil])).insert "b" (.ofList 0 [.nil]) |>.erase "a", 0⟩ other 0 → other = "b" := by
    intro other occupies
    obtain ⟨array, bound, -, -⟩ := occupies
    have entry := Bindings.get?_eq_some_iff.mp bound
    exact (Prod.mk.inj (List.mem_singleton.mp entry)).1
  have runs : Runs Value.nil empty handedOver _ :=
    .next (@Step.create _ _ _ _ _ 0 0 nofun) (.next (@Step.clone _ _ _ _ _ _ 0 rfl)
      (.next (@Step.drop _ _ _ _ 0) (.next (@Step.push _ _ _ _ _ _ _ 0 rfl (.stays rfl alone))
        (.next (@Step.tail _ _ _ _ _ _ _ 0 rfl) .done))))
  obtain ⟨classes, further⟩ := (sharing_along_history Value.nil handedOver).2 _ runs
  refine ⟨_, _, _, runs, rfl, rfl, rfl, rfl, classes.suffix "b" "c" _ _ rfl rfl rfl,
    classes.symm "b" "c" rfl, fun pool' step => ?_⟩
  exact (further _ pool' step).1 "c" (by decide)

end ArrayPool

end LinearIR
