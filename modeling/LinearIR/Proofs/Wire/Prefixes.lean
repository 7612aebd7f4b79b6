import Mathlib.Algebra.GroupWithZero.Nat
import LinearIR.Proofs.Wire.Spelling

/-!
# Decoding reads a definite prefix

What a decoder takes from the input does not depend on what follows, and all of it is needed. Each
part of a term takes a byte of its own, so neither the term nor any loop on the way to it is larger
than the input, whatever count is announced. Nesting is not cut short either: any depth that is not
below the length of the input gives the same result.
-/

set_option autoImplicit false

namespace LinearIR

open Wire Wire.Decoder

/-! ## Parts of a term -/

namespace Value

mutual

/-- The number of values in the value, itself included. -/
def nodes : Value → Nat
  | .scalar _ => 1
  | .array elements => nodesAll elements + 1

def nodesAll : List Value → Nat
  | [] => 0
  | first :: rest => nodes first + nodesAll rest

end

theorem nodesAll_eq_sum (elements : List Value) : nodesAll elements = (elements.map nodes).sum := by
  induction elements with
  | nil => rfl
  | cons first rest ih => rw [nodesAll, ih, List.map_cons, List.sum_cons]

end Value

namespace Operand

mutual

/-- The number of operands and values in the operand, itself included. -/
def nodes : Operand Value → Nat
  | .constant value => value.nodes + 1
  | .array elements => nodesAll elements + 1
  | .var _ | .label _ | .self => 1

def nodesAll : List (Operand Value) → Nat
  | [] => 0
  | first :: rest => nodes first + nodesAll rest

end

theorem nodesAll_eq_sum (elements : List (Operand Value)) :
    nodesAll elements = (elements.map nodes).sum := by
  induction elements with
  | nil => rfl
  | cons first rest ih => rw [nodesAll, ih, List.map_cons, List.sum_cons]

end Operand

def Instruction.nodes (instruction : Instruction Value) : Nat :=
  (instruction.operands.map Operand.nodes).sum + 1

def Code.nodes (code : Code Value) : Nat :=
  (code.map Instruction.nodes).sum

/-! ## Every part takes a byte -/

namespace Wire

theorem atLeast_prod {α : Type} {least : α → Nat} {spelling : α → Language UInt8}
    {elements : List α}
    (atLeast : ∀ element ∈ elements, AtLeast (least element) (spelling element)) :
    AtLeast (elements.map least).sum (elements.map spelling).prod := by
  induction elements with
  | nil => exact atLeast_zero _
  | cons first rest ih =>
      obtain ⟨atLeastFirst, atLeastRest⟩ := List.forall_mem_cons.mp atLeast
      exact atLeastFirst.mul (ih atLeastRest)

theorem atLeast_sequence {α : Type} {least : α → Nat} {spelling : α → Language UInt8}
    {elements : List α}
    (atLeast : ∀ element ∈ elements, AtLeast (least element) (spelling element)) :
    AtLeast (elements.map least).sum (Spelling.sequence spelling elements) :=
  (atLeast_prod atLeast).mul_left _

end Wire

theorem Value.atLeast_nodes (value : Value) : AtLeast value.nodes value.spelling := by
  induction value using Value.induction with
  | scalar value => exact (atLeast_zero _).numbered
  | array elements ih =>
      rw [nodes, nodesAll_eq_sum, spelling_eq_numbered]
      exact (atLeast_sequence ih).numbered

theorem Operand.atLeast_nodes (operand : Operand Value) :
    AtLeast operand.nodes operand.spelling := by
  induction operand using Operand.induction with
  | var | label | self => exact (atLeast_zero _).numbered
  | constant value => exact value.atLeast_nodes.numbered
  | array elements ih =>
      rw [nodes, nodesAll_eq_sum, spelling_eq_numbered]
      exact (atLeast_sequence ih).numbered

theorem Instruction.atLeast_nodes (instruction : Instruction Value) :
    AtLeast instruction.nodes instruction.spelling := by
  refine AtLeast.numbered ?_
  cases instruction with
  | copy result source =>
      simpa [operands] using source.atLeast_nodes.mul_left (Variable.spelling result)
  | getArray result array index takeRest =>
      simpa [operands] using (array.atLeast_nodes.mul_right _).mul_left (Variable.spelling result)
  | label | jump => exact atLeast_zero _
  | beq first second target =>
      simpa [operands] using first.atLeast_nodes.mul (second.atLeast_nodes.mul_right _)
  | ret value => simpa [operands] using value.atLeast_nodes

theorem Code.atLeast_nodes (code : Code Value) : AtLeast code.nodes code.spelling :=
  atLeast_sequence fun instruction _ => instruction.atLeast_nodes

/-! ## Prefixes and loops -/

namespace Wire.Decoder

variable {α : Type} {decoder : Decoder α} {spelling : α → Language UInt8}

/-- A decoder is definite if what it takes decides the result, all of it is needed and it has a
byte for every node of the result. A loop over the decoder then reads fewer elements than the input
has bytes: it is over or fails before that. -/
structure Definite (decoder : Decoder α) (nodes : α → Nat) : Prop where
  reads_prefix : ∀ input value rest, decoder input = some (value, rest) →
    ∃ taken, taken ++ rest = input ∧ nodes value ≤ taken.length ∧
      (∀ other, decoder (taken ++ other) = some (value, other)) ∧
      ∀ part, part <+: taken → part ≠ taken → decoder part = none
  loop_bounded : ∀ input count left, Decoder.nat64 input = some (count, left) →
    ∃ read < input.length, ∃ elements rest, repeated decoder read left = some (elements, rest) ∧
      (read = count ∧ sequence decoder input = some (elements, rest) ∨
        read < count ∧ decoder rest = none ∧ sequence decoder input = none)

theorem repeated_succ (count : Nat) (input : List UInt8) :
    repeated decoder (count + 1) input = (decoder input).bind fun read =>
      (repeated decoder count read.2).map fun more => (read.1 :: more.1, more.2) := by
  change (decoder input).bind _ = _
  congr 1
  funext read
  change (repeated decoder count read.2).bind _ = _
  cases repeated decoder count read.2 <;> rfl

/-- However many elements are due, a loop that takes a byte for each is over or has failed once the
input is used up. -/
theorem exists_repeated_read (count : Nat) (input : List UInt8)
    (takes : ∀ input value rest, decoder input = some (value, rest) → rest.length < input.length) :
    ∃ read ≤ input.length, ∃ elements rest, repeated decoder read input = some (elements, rest) ∧
      (read = count ∨
        read < count ∧ decoder rest = none ∧ repeated decoder count input = none) := by
  induction count generalizing input with
  | zero => exact ⟨0, Nat.zero_le _, [], input, rfl, .inl rfl⟩
  | succ count ih =>
      cases first : decoder input with
      | none =>
          refine ⟨0, Nat.zero_le _, [], input, rfl, .inr ⟨Nat.succ_pos _, first, ?_⟩⟩
          rw [repeated_succ, first, Option.bind_none]
      | some read =>
          obtain ⟨value, left⟩ := read
          obtain ⟨more, within, elements, rest, readMore, outcome⟩ := ih left
          have shorter := takes input value left first
          refine ⟨more + 1, by omega, value :: elements, rest, ?_, ?_⟩
          · rw [repeated_succ, first, Option.bind_some, readMore, Option.map_some]
          · rcases outcome with rfl | ⟨fewer, stuck, failed⟩
            · exact .inl rfl
            · refine .inr ⟨Nat.succ_lt_succ fewer, stuck, ?_⟩
              rw [repeated_succ, first, Option.bind_some, failed, Option.map_none]

theorem Accepts.agree {limit limit' : Nat} {decoder' : Decoder α} {input : List UInt8}
    (accepts : Accepts limit decoder spelling) (accepts' : Accepts limit' decoder' spelling)
    (short : input.length ≤ limit) (short' : input.length ≤ limit') :
    decoder input = decoder' input := by
  ext ⟨value, rest⟩
  exact (accepts input short value rest).trans (accepts' input short' value rest).symm

theorem Accepts.definite {nodes : α → Nat} (accepts : ∀ limit, Accepts limit decoder spelling)
    (atLeast : ∀ value, AtLeast (nodes value) (spelling value))
    (takesByte : ∀ value, AtLeast 1 (spelling value)) : Definite decoder nodes := by
  constructor
  · intro input value rest read
    obtain ⟨taken, spelled, rfl⟩ := (Accepts.eq_some_iff accepts).mp read
    have reads := Accepts.reads accepts spelled
    refine ⟨taken, rfl, atLeast value taken spelled, reads, ?_⟩
    intro part isPrefix proper
    obtain ⟨missing, rfl⟩ := isPrefix
    cases early : decoder part with
    | none => rfl
    | some read =>
        -- What was read early would be read again with the rest of the bytes, but all are taken.
        obtain ⟨value', left⟩ := read
        obtain ⟨taken', spelled', rfl⟩ := (Accepts.eq_some_iff accepts).mp early
        have again := Accepts.reads accepts spelled' (left ++ missing)
        have all := reads []
        rw [List.append_nil, List.append_assoc, again] at all
        have nothing := (Prod.mk.inj (Option.some.inj all)).2
        obtain ⟨-, rfl⟩ := List.append_eq_nil_iff.mp nothing
        exact absurd (List.append_nil _).symm proper
  · intro input count left counted
    have takes : ∀ input value rest, decoder input = some (value, rest) →
        rest.length < input.length := by
      intro input value rest read
      obtain ⟨taken, spelled, rfl⟩ := (Accepts.eq_some_iff accepts).mp read
      have := takesByte value taken spelled
      rw [List.length_append]
      omega
    have opened : sequence decoder input = repeated decoder count left := by
      change (Decoder.nat64 input).bind (fun read => repeated decoder read.1 read.2) = _
      rw [counted, Option.bind_some]
    obtain ⟨taken, spelled, rfl⟩ := (Accepts.eq_some_iff fun _ => accepts_nat64).mp counted
    have counterTaken := atLeast_bounded _ _ _ taken spelled
    obtain ⟨read, within, elements, rest, readElements, outcome⟩ :=
      exists_repeated_read count left takes
    refine ⟨read, by rw [List.length_append]; omega, elements, rest, readElements, ?_⟩
    rw [opened]
    rcases outcome with rfl | outcome
    · exact .inl ⟨rfl, readElements⟩
    · exact .inr outcome

end Wire.Decoder

/-- The decoder of every type takes a definite prefix of the input, with a byte for each node of
what it yields, and no count makes it loop longer than the input. The depth that bounds its
recursion decides nothing. -/
theorem Wire.decoder_definite :
    (∀ depth input, input.length ≤ depth → Value.decoderWithin depth input = Value.decoder input) ∧
    (∀ depth input, input.length ≤ depth →
      Operand.decoderWithin depth input = Operand.decoder input) ∧
    Definite Decoder.byte (fun _ => 1) ∧ Definite Value.decoder Value.nodes ∧
    Definite Operand.decoder Operand.nodes ∧ Definite Instruction.decoder Instruction.nodes ∧
    Definite Code.decoder Code.nodes := by
  refine ⟨?_, ?_, ?_, ?_, ?_, ?_, ?_⟩
  · intro depth input short
    exact (Value.accepts_decoderWithin depth).agree Value.accepts_decoder short (Nat.le_refl _)
  · intro depth input short
    exact (Operand.accepts_decoderWithin depth).agree Operand.accepts_decoder short (Nat.le_refl _)
  · have one (value : UInt8) : AtLeast 1 (Spelling.byte value) := by
      rintro taken rfl
      exact Nat.le_refl 1
    exact Accepts.definite (fun _ => accepts_byte) one one
  · refine Accepts.definite (fun _ => Value.accepts_decoder) Value.atLeast_nodes ?_
    intro value
    rw [Value.spelling_eq_numbered]
    exact (atLeast_zero _).numbered
  · refine Accepts.definite (fun _ => Operand.accepts_decoder) Operand.atLeast_nodes ?_
    intro operand
    rw [Operand.spelling_eq_numbered]
    exact (atLeast_zero _).numbered
  · refine Accepts.definite (fun _ => Instruction.accepts_decoder) Instruction.atLeast_nodes ?_
    exact fun instruction => (atLeast_zero _).numbered
  · refine Accepts.definite (fun _ => Code.accepts_decoder) Code.atLeast_nodes ?_
    exact fun code => (atLeast_bounded _ _ _).mul_right _

/-- An array of two elements is read whatever follows it, and not from fewer bytes. With the greatest
count there is, the loop fails after two elements. -/
theorem arrays_read_definitely :
    (∀ other, Value.decoder ([0x05, 0x02, 0x01, 0x01, 0x00] ++ other) =
      some (.array [.scalar (.bool true), .nil], other)) ∧
    Value.decoder [0x05, 0x02, 0x01, 0x01] = none ∧
    Decoder.nat64 [0xff, 0xff, 0xff, 0xff, 0xff, 0xff, 0xff, 0xff, 0xff, 0x01, 0x00, 0x00] =
        some (2 ^ 64 - 1, [0x00, 0x00]) ∧
      ∃ read < 12, ∃ elements rest,
        repeated Value.decoder read [0x00, 0x00] = some (elements, rest) ∧
          Value.decoder rest = none := by
  have decoded : Value.decoder [0x05, 0x02, 0x01, 0x01, 0x00, 0x2a] =
      some (.array [.scalar (.bool true), .nil], [0x2a]) := rfl
  have counted :
      Decoder.nat64 [0xff, 0xff, 0xff, 0xff, 0xff, 0xff, 0xff, 0xff, 0xff, 0x01, 0x00, 0x00] =
        some (2 ^ 64 - 1, [0x00, 0x00]) := by decide
  obtain ⟨-, -, -, definite, -⟩ := Wire.decoder_definite
  obtain ⟨taken, split, -, whateverFollows, allNeeded⟩ := definite.reads_prefix _ _ _ decoded
  obtain rfl : taken = [0x05, 0x02, 0x01, 0x01, 0x00] := List.append_cancel_right split
  obtain ⟨read, short, elements, rest, readElements, outcome⟩ :=
    definite.loop_bounded _ _ _ counted
  refine ⟨whateverFollows, allNeeded _ (by decide) (by decide), counted, read, short, elements,
    rest, readElements, ?_⟩
  rcases outcome with ⟨rfl, -⟩ | ⟨-, failed, -⟩
  · exact absurd short (by decide)
  · exact failed

end LinearIR
