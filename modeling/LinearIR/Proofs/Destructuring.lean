import Mathlib.Algebra.Group.Nat.Defs
import Mathlib.Data.List.Nodup
import LinearIR.Execution.Session
import LinearIR.Proofs.StepLimit

/-!
# Destructuring

An array is taken apart by an extraction for each of its first elements and one for the rest. The
extractions write different variables and read one that none of them writes, so their order does
not matter. This holds in every context that keeps its variables, whether or not the parts share
storage with the array.
-/

set_option autoImplicit false

namespace LinearIR

/-! ## Contexts that keep their variables -/

namespace ExecutionContext

section

variable {γ V : Type} [ExecutionContext γ V]

/-- What a load of the variable would yield. -/
def lookup (context : γ) (name : Variable) : Option V :=
  ((load (γ := γ) name).run context).1

end

/-- A variable holds what was stored in it last, and loads leave all variables as they are. -/
class Lawful (γ : Type) (V : outParam Type) [ExecutionContext γ V] : Prop where
  lookup_load : ∀ (context : γ) (loaded name : Variable),
    lookup ((load (γ := γ) loaded).run context).2 name = lookup context name
  lookup_store : ∀ (context : γ) (stored name : Variable) (value : V),
    lookup ((store (γ := γ) stored value).run context).2 name =
      if name = stored then some value else lookup context name

instance : Lawful (Frame Value) Value where
  lookup_load _ _ _ := rfl
  lookup_store := Frame.get?_bind

instance : Lawful SharedFrame SharedValue where
  lookup_load _ _ _ := rfl
  lookup_store context stored name value :=
    Bindings.get?_insert context.frame.locals stored name value

instance {γ V : Type} [ExecutionContext γ V] [Lawful γ V] : Lawful (Logged γ V) V where
  lookup_load logged := Lawful.lookup_load logged.context
  lookup_store logged := Lawful.lookup_store logged.context

end ExecutionContext

open ExecutionContext

/-! ## One extraction -/

theorem exists_extract? {V : Type} [ValueLike V] {array : V} {elements : List Value}
    (isArray : toValue array = .array elements) (index : Nat) (takeRest : Bool) :
    ∃ part, ValueLike.extract? array index takeRest = some part ∧
      (Value.array elements).extract? index takeRest = some (toValue part) := by
  have stands := ValueLike.toValue_extract? array index takeRest
  rw [isArray] at stands
  obtain ⟨part, extracted, same⟩ := Option.map_eq_some_iff.mp stands
  exact ⟨part, extracted, congrArg some same.symm⟩

/-- Parts of the rest of an array are parts of the array further on. -/
theorem Value.extract?_drop (elements : List Value) (count index : Nat) (takeRest : Bool) :
    (array (elements.drop count)).extract? index takeRest =
      (array elements).extract? (count + index) takeRest := by
  rw [extract?, extract?, List.drop_drop, List.getElem?_drop]

namespace Instruction

variable {γ V : Type} [ExecutionContext γ V] [ValueLike V]

/-- Executing the instruction changes one variable, and control goes on behind it. -/
def Assigns (instruction : Instruction V) (receiver : V) (context after : γ) (name : Variable)
    (value : V) : Prop :=
  (instruction.execute receiver).run.run context = (.ok none, after) ∧
    ∀ other, lookup after other = if other = name then some value else lookup context other

variable [Lawful γ V] {context : γ} {source : Variable} {array : V}

theorem exists_assigns_getArray (receiver : V) {index : UInt64} {takeRest : Bool} {part : V}
    (result : Variable) (bound : lookup context source = some array)
    (extracted : ValueLike.extract? array index.toNat takeRest = some part) :
    ∃ after, (getArray result (.var source) index takeRest).Assigns receiver context after result
      part := by
  have evaluated : ((Operand.var source).evaluate (γ := γ) receiver).run.run context =
      (.ok array, ((load (γ := γ) source).run context).2) := by
    have loaded : (liftM (load (γ := γ) source) : Execution γ V (Option V)).run.run context =
        (.ok (lookup context source), ((load (γ := γ) source).run context).2) := rfl
    rw [Operand.evaluate, Execution.run_bind, loaded, bound]
    rfl
  refine ⟨((store (γ := γ) result part).run ((load (γ := γ) source).run context).2).2, ?_, ?_⟩
  · rw [execute, Execution.run_bind, evaluated]
    simp only [extracted]
    rfl
  · intro other
    rw [Lawful.lookup_store, Lawful.lookup_load]

theorem exists_assigns_alike (receiver : V) {rest : Variable} {others : V} {elements : List Value}
    {count : Nat} {index : UInt64} (part : Variable) (takeRest : Bool)
    (isArray : toValue array = .array elements) (bound : lookup context source = some array)
    (isRest : toValue others = .array (elements.drop count))
    (restBound : lookup context rest = some others) (fits : count + index.toNat < 2 ^ 64) :
    ∃ fromRest fromSource after after',
      (getArray part (.var rest) index takeRest).Assigns receiver context after part fromRest ∧
      (getArray part (.var source) (count.toUInt64 + index) takeRest).Assigns receiver context
        after' part fromSource ∧
      toValue fromRest = toValue fromSource := by
  obtain ⟨fromRest, extractedRest, standsRest⟩ := exists_extract? isRest index.toNat takeRest
  obtain ⟨fromSource, extractedSource, standsSource⟩ :=
    exists_extract? isArray (count + index.toNat) takeRest
  have further : (count.toUInt64 + index).toNat = count + index.toNat := by
    rw [UInt64.toNat_add, Nat.toUInt64, UInt64.toNat_ofNat_of_lt' (Nat.lt_of_add_right_lt fits),
      Nat.mod_eq_of_lt fits]
  rw [← further] at extractedSource
  obtain ⟨after, assignsRest⟩ := exists_assigns_getArray receiver part restBound extractedRest
  obtain ⟨after', assignsSource⟩ := exists_assigns_getArray receiver part bound extractedSource
  refine ⟨fromRest, fromSource, after, after', assignsRest, assignsSource, ?_⟩
  rw [Value.extract?_drop, standsSource] at standsRest
  exact (Option.some.inj standsRest).symm

end Instruction

/-! ## Extractions in sequence -/

theorem RunState.step_of_execute {γ V : Type} [ExecutionContext γ V] [ValueLike V] {code : Code V}
    {receiver : V} {position : Nat} {instruction : Instruction V} {context after : γ}
    (found : code[position]? = some instruction)
    (executed : (instruction.execute receiver).run.run context = (.ok none, after))
    (goesOn : instruction.isReturn = false) :
    step code receiver (.running position context) = .arrive code (position + 1) after := by
  simp only [step, found, executed, follow, goesOn, Bool.false_eq_true, if_false]

namespace Code

variable {γ V : Type}

/-- All instructions extract parts of one variable, which none of them writes. -/
def ExtractsFrom (code : Code V) (source : Variable) : Prop :=
  ∀ instruction ∈ code, ∃ result index takeRest,
    instruction = .getArray result (.var source) index takeRest ∧ result ≠ source

variable [ExecutionContext γ V] [Lawful γ V] [ValueLike V]

theorem ExtractsFrom.executes {code : Code V} {source : Variable} {array : V}
    {elements : List Value} {context : γ} (receiver : V) (extracts : code.ExtractsFrom source)
    (distinct : (code.map Instruction.result?).Nodup) (bound : lookup context source = some array)
    (isArray : toValue array = .array elements) (before : Code V) :
    ∃ final, RunState.Executes (before ++ code) receiver code.length
        (.arrive (before ++ code) before.length context) (.ended .finished final) ∧
      (∀ result index takeRest, .getArray result (.var source) index takeRest ∈ code →
        ∃ part, lookup final result = some part ∧
          (Value.array elements).extract? index.toNat takeRest = some (toValue part)) ∧
      ∀ other, (∀ instruction ∈ code, instruction.result? ≠ some other) →
        lookup final other = lookup context other := by
  induction code generalizing before context with
  | nil =>
      refine ⟨context, ?_, nofun, fun _ _ => rfl⟩
      rw [RunState.arrive_of_ge (by simp)]
      exact .none
  | cons first rest ih =>
      obtain ⟨firstExtracts, restExtracts⟩ := List.forall_mem_cons.mp extracts
      obtain ⟨result, index, takeRest, rfl, differs⟩ := firstExtracts
      rw [List.map_cons, List.nodup_cons] at distinct
      obtain ⟨part, extracted, stands⟩ := exists_extract? isArray index.toNat takeRest
      obtain ⟨after, executed, assigned⟩ :=
        Instruction.exists_assigns_getArray receiver result bound extracted
      have boundAfter : lookup after source = some array := by
        rw [assigned, if_neg differs.symm, bound]
      obtain ⟨final, executes, holds, unchanged⟩ := ih restExtracts distinct.2 boundAfter
        (before ++ [.getArray result (.var source) index takeRest])
      -- Later instructions write other variables, so the part extracted here is there at the end.
      have notWrittenAgain : ∀ instruction ∈ rest, instruction.result? ≠ some result := by
        intro instruction member same
        exact distinct.1 (List.mem_map.mpr ⟨instruction, member, same⟩)
      refine ⟨final, ?_, ?_, ?_⟩
      · have found :
            (before ++ .getArray result (.var source) index takeRest :: rest)[before.length]? =
              some (.getArray result (.var source) index takeRest) := by
          rw [List.getElem?_append_right (Nat.le_refl _), Nat.sub_self, List.getElem?_cons_zero]
        rw [List.append_assoc, List.length_append, List.length_singleton] at executes
        rw [RunState.arrive_of_lt (by simp)]
        refine .next found ?_
        rw [RunState.step_of_execute found executed rfl]
        exact executes
      · intro result' index' takeRest' member
        rcases List.mem_cons.mp member with same | later
        · cases same
          exact ⟨part, by rw [unchanged result notWrittenAgain, assigned, if_pos rfl], stands⟩
        · exact holds result' index' takeRest' later
      · intro other unwritten
        obtain ⟨notFirst, notRest⟩ := List.forall_mem_cons.mp unwritten
        have differs : other ≠ result := fun same => notFirst (congrArg some same.symm)
        rw [unchanged other notRest, assigned, if_neg differs]

end Code

/-! ## Destructuring an array -/

namespace Code

variable {γ V : Type}

/-- Takes the array in the first variable apart into its first elements and the rest. -/
def destructuring (source : Variable) (targets : List Variable) (rest : Variable) : Code V :=
  targets.mapIdx (fun index target => .getArray target (.var source) index.toUInt64 false) ++
    [.getArray rest (.var source) targets.length.toUInt64 true]

section

variable {source rest : Variable} {targets : List Variable}

theorem map_result?_destructuring :
    (destructuring (V := V) source targets rest).map Instruction.result? =
      (targets ++ [rest]).map some := by
  rw [destructuring, List.map_append, List.map_append]
  congr 1
  refine List.ext_getElem (by simp) fun index _ _ => ?_
  simp [Instruction.result?]

theorem extractsFrom_destructuring (apart : source ∉ rest :: targets) :
    (destructuring (V := V) source targets rest).ExtractsFrom source := by
  intro instruction member
  rcases List.mem_append.mp member with element | last
  · obtain ⟨index, inside, rfl⟩ := List.mem_mapIdx.mp element
    refine ⟨targets[index], _, _, rfl, ?_⟩
    rintro rfl
    exact apart (List.mem_cons_of_mem rest (List.getElem_mem inside))
  · obtain rfl := List.mem_singleton.mp last
    refine ⟨rest, _, _, rfl, ?_⟩
    rintro rfl
    exact apart List.mem_cons_self

theorem nodup_result?_destructuring (distinct : (rest :: targets).Nodup) :
    ((destructuring (V := V) source targets rest).map Instruction.result?).Nodup := by
  obtain ⟨restApart, targetsDistinct⟩ := List.nodup_cons.mp distinct
  rw [map_result?_destructuring]
  refine List.Nodup.map (fun _ _ same => Option.some.inj same) (List.nodup_append.mpr ?_)
  refine ⟨targetsDistinct, List.nodup_singleton rest, ?_⟩
  rintro target member _ last rfl
  exact restApart (List.mem_singleton.mp last ▸ member)

theorem mem_destructuring {index : Nat} {target : Variable}
    (found : targets[index]? = some target) :
    .getArray target (.var source) index.toUInt64 false ∈
      destructuring (V := V) source targets rest := by
  obtain ⟨inside, rfl⟩ := List.getElem?_eq_some_iff.mp found
  exact List.mem_append_left _ (List.mem_mapIdx.mpr ⟨index, inside, rfl⟩)

end

variable [ExecutionContext γ V] [Lawful γ V] [ValueLike V]

/-- Destructuring with its instructions in any order runs off the end after as many instructions as
there are. Each target then holds its element, or nil past the end, and the rest holds the others;
the array and all other variables are as before. What is extracted from the rest is what is
extracted from the array that many elements further on. -/
theorem destructuring_in_any_order {source rest : Variable} {targets : List Variable}
    {code : Code V} {context : γ} {array : V} {elements : List Value}
    (distinct : (source :: rest :: targets).Nodup) (indexed : targets.length < 2 ^ 64)
    (reordered : code.Perm (destructuring source targets rest))
    (bound : lookup context source = some array) (isArray : toValue array = .array elements)
    (receiver : V) :
    ∃ final, code.EndsAfter receiver context (targets.length + 1) .finished final ∧
      (∀ limit, targets.length + 1 ≤ limit →
        code.run (some limit) receiver context = (.finished, final)) ∧
      (∀ (index : Nat) (target : Variable), targets[index]? = some target →
        ∃ part, lookup final target = some part ∧ toValue part = elements[index]?.getD .nil) ∧
      (∃ others, lookup final rest = some others ∧
        toValue others = .array (elements.drop targets.length)) ∧
      lookup final source = some array ∧
      (∀ other, other ≠ rest → other ∉ targets → lookup final other = lookup context other) ∧
      ∀ (part : Variable) (index : UInt64) (takeRest : Bool),
        targets.length + index.toNat < 2 ^ 64 → ∃ fromRest fromSource after after',
          (Instruction.getArray part (.var rest) index takeRest).Assigns receiver final after part
            fromRest ∧
          (Instruction.getArray part (.var source) (targets.length.toUInt64 + index)
            takeRest).Assigns receiver final after' part fromSource ∧
          toValue fromRest = toValue fromSource := by
  obtain ⟨sourceApart, distinct⟩ := List.nodup_cons.mp distinct
  have extracts : code.ExtractsFrom source := fun instruction member =>
    extractsFrom_destructuring sourceApart instruction (reordered.subset member)
  have results := reordered.map Instruction.result?
  have length : code.length = targets.length + 1 := by
    rw [reordered.length_eq]
    simp [destructuring]
  obtain ⟨final, executes, holds, unchanged⟩ := extracts.executes receiver
    (results.nodup_iff.mpr (nodup_result?_destructuring distinct)) bound isArray []
  have ends : code.EndsAfter receiver context (targets.length + 1) .finished final := by
    rw [← length]
    exact executes
  have narrow {number : Nat} (fits : number < 2 ^ 64) : number.toUInt64.toNat = number :=
    UInt64.toNat_ofNat_of_lt' fits
  have unwritten (other : Variable) (notRest : other ≠ rest) (notTarget : other ∉ targets) :
      lookup final other = lookup context other := by
    refine unchanged other fun instruction member writes => ?_
    have result := results.subset (List.mem_map_of_mem member)
    rw [writes, map_result?_destructuring] at result
    simp only [List.mem_map, List.mem_append, List.mem_singleton, Option.some.injEq,
      exists_eq_right] at result
    exact result.elim notTarget notRest
  have boundAfter : lookup final source = some array := by
    rw [unwritten source (fun same => sourceApart (same ▸ List.mem_cons_self))
      (fun member => sourceApart (List.mem_cons_of_mem rest member)), bound]
  obtain ⟨others, restBound, restStands⟩ := holds rest targets.length.toUInt64 true
    (reordered.symm.subset (List.mem_append_right _ (List.mem_singleton.mpr rfl)))
  rw [narrow indexed] at restStands
  have isRest : toValue others = .array (elements.drop targets.length) :=
    (Option.some.inj restStands).symm
  refine ⟨final, ends, fun limit => ends.run_eq, ?_, ⟨others, restBound, isRest⟩, boundAfter,
    unwritten, ?_⟩
  · intro index target found
    obtain ⟨part, partBound, stands⟩ :=
      holds target index.toUInt64 false (reordered.symm.subset (mem_destructuring found))
    have inside := (List.getElem?_eq_some_iff.mp found).1
    rw [narrow (Nat.lt_trans inside indexed)] at stands
    exact ⟨part, partBound, (Option.some.inj stands).symm⟩
  · intro part index takeRest fits
    exact Instruction.exists_assigns_alike receiver part takeRest isArray boundAfter isRest
      restBound fits

/-- A variable with an array that shows two of the three elements in its storage. -/
def offsetFrame : SharedFrame where
  frame := .ofList [(⟨"t"⟩,
    .array ⟨4, [.scalar .nil, .scalar (.bool true), .array ⟨3, [.scalar .nil], 0⟩], 1⟩)]
  nextStorage := 5

/-- The rest is taken first, and the third target is past the end. -/
theorem offsetArray_destructured_backwards :
    ∃ final, Code.run (destructuring ⟨"t"⟩ [⟨"a"⟩, ⟨"b"⟩, ⟨"c"⟩] ⟨"rest"⟩).reverse (some 4)
        (SharedValue.scalar .nil) offsetFrame = (.finished, final) ∧
      (∃ part, lookup final ⟨"b"⟩ = some part ∧ toValue part = .array [.nil]) ∧
      (∃ part, lookup final ⟨"c"⟩ = some part ∧ toValue part = .nil) ∧
      ∃ others, lookup final ⟨"rest"⟩ = some others ∧ toValue others = .array [] := by
  have distinct : ([⟨"t"⟩, ⟨"rest"⟩, ⟨"a"⟩, ⟨"b"⟩, ⟨"c"⟩] : List Variable).Nodup := by decide
  have bound : lookup offsetFrame ⟨"t"⟩ =
      some (.array ⟨4, [.scalar .nil, .scalar (.bool true), .array ⟨3, [.scalar .nil], 0⟩], 1⟩) :=
    rfl
  obtain ⟨final, -, ran, targets, others, -⟩ := destructuring_in_any_order distinct (by decide)
    (List.reverse_perm _) bound rfl (.scalar .nil)
  exact ⟨final, ran 4 (Nat.le_refl 4), targets 1 ⟨"b"⟩ rfl, targets 2 ⟨"c"⟩ rfl, others⟩

end Code

end LinearIR
