import LinearIR.Proofs.Wire.Spelling
import LinearIR.Wire.Shared

/-!
# Reading back what was written

What is written for a value, an operand, an instruction or code is one of its spellings, so it is
read back and the bytes that follow are left alone. Lengths are written in 64 bits, so strings and
arrays must not be longer than that allows. An array that begins inside its storage is read back as
an array of what it shows.
-/

set_option autoImplicit false

namespace LinearIR

open Wire Wire.Decoder

/-! ## Primitives -/

namespace Wire

theorem encodeNat_mem_nat32 {number : Nat} (below : number < 2 ^ 32) :
    encodeNat number ∈ Spelling.nat32 number :=
  Spelling.mem_bounded.mpr
    ⟨below, digits_spell (by omega), length_encodeNat_le (by omega) (by omega)⟩

theorem encodeNat_mem_nat64 {number : Nat} (below : number < 2 ^ 64) :
    encodeNat number ∈ Spelling.nat64 number :=
  Spelling.mem_bounded.mpr
    ⟨below, digits_spell (by omega), length_encodeNat_le (by omega) (by omega)⟩

theorem encodeInt64_mem (number : Int64) : encodeInt64 number ∈ Spelling.int64 number :=
  encodeNat_mem_nat64 (zigzag_lt number.le_toInt number.toInt_lt)

theorem encodeBits_mem (value : UInt64) : encodeBits value ∈ Spelling.bits value :=
  ⟨length_littleEndian 8 value.toNat, ofLittleEndian_littleEndian value.toNat_lt⟩

theorem encodeBool_mem (value : Bool) : encodeBool value ∈ Spelling.bool value :=
  Spelling.mem_byte.mpr rfl

theorem encodeSequence_mem {α : Type} {encode : α → List UInt8} {spelling : α → Language UInt8}
    {elements : List α} (countable : elements.length < 2 ^ 64)
    (spelled : ∀ element ∈ elements, encode element ∈ spelling element) :
    encodeNat elements.length ++ elements.flatMap encode ∈ Spelling.sequence spelling elements := by
  refine Language.append_mem_mul (encodeNat_mem_nat64 countable) ?_
  clear countable
  induction elements with
  | nil => exact Language.nil_mem_one
  | cons first rest ih =>
      obtain ⟨firstSpelled, restSpelled⟩ := List.forall_mem_cons.mp spelled
      exact Language.append_mem_mul firstSpelled (ih restSpelled)

theorem encodeString_mem {value : String} (countable : value.utf8ByteSize < 2 ^ 64) :
    encodeString value ∈ Spelling.string value := by
  have counted : value.toUTF8.data.toList.length < 2 ^ 64 := by
    rw [Array.length_toList]
    exact countable
  rw [Spelling.string, Spelling.sequence, Spelling.prod_byte]
  exact Language.append_mem_mul (encodeNat_mem_nat64 counted) rfl

theorem encodeNumbered_mem {number : Nat} {bytes : List UInt8} {contents : Language UInt8}
    (below : number < 2 ^ 32) (spelled : bytes ∈ contents) :
    encodeNat number ++ bytes ∈ Spelling.numbered number contents :=
  Language.append_mem_mul (encodeNat_mem_nat32 below) spelled

end Wire

/-! ## Values -/

def Scalar.Fits : Scalar → Prop
  | .str value => value.utf8ByteSize < 2 ^ 64
  | .nil | .bool _ | .fixnum _ | .float _ => True

theorem Scalar.encode_mem {value : Scalar} (fits : value.Fits) :
    value.encode ∈ Spelling.numbered value.number value.contents := by
  cases value with
  | nil => exact encodeNumbered_mem (by decide) Language.nil_mem_one
  | bool value => exact encodeNumbered_mem (by simp) (encodeBool_mem value)
  | fixnum value => exact encodeNumbered_mem (by simp) (encodeInt64_mem value)
  | float value => exact encodeNumbered_mem (by simp) (encodeBits_mem value.bits)
  | str value => exact encodeNumbered_mem (by simp) (encodeString_mem fits)

namespace Value

inductive Fits : Value → Prop where
  | scalar {value} : value.Fits → Fits (.scalar value)
  | array {elements} : elements.length < 2 ^ 64 → (∀ element ∈ elements, Fits element) →
      Fits (.array elements)

theorem encodeAll_eq_flatMap (elements : List Value) :
    encodeAll elements = elements.flatMap encode := by
  induction elements with
  | nil => rfl
  | cons first rest ih => rw [encodeAll, ih, List.flatMap_cons]

theorem encode_mem_spelling {value : Value} (fits : value.Fits) :
    value.encode ∈ value.spelling := by
  induction fits with
  | scalar fits => exact Scalar.encode_mem fits
  | @array elements countable fits ih =>
      rw [encode, encodeAll_eq_flatMap, List.append_assoc, spelling_eq_numbered]
      exact encodeNumbered_mem (by simp) (encodeSequence_mem countable ih)

theorem reads_decoder {value : Value} (fits : value.Fits) : Reads decoder value.encode value :=
  Accepts.reads (fun _ => accepts_decoder) (encode_mem_spelling fits)

theorem fits_drop {elements : List Value} (fits : (array elements).Fits) (count : Nat) :
    (array (elements.drop count)).Fits := by
  cases fits with
  | array countable fits =>
      refine .array ?_ fun element member => fits element (List.mem_of_mem_drop member)
      rw [List.length_drop]
      omega

theorem reads_elements {elements : List Value} (fits : (array elements).Fits) :
    Reads (sequence decoder) (encodeElements elements) elements := by
  cases fits with
  | array countable fits =>
      rw [encodeElements, encodeAll_eq_flatMap]
      have spelled := encodeSequence_mem countable fun element member =>
        encode_mem_spelling (fits element member)
      exact Accepts.reads (fun _ => accepts_sequence accepts_decoder) spelled

end Value

/-! ## Operands, instructions and code -/

def Variable.Fits (name : Variable) : Prop :=
  name.name.utf8ByteSize < 2 ^ 64

def Label.Fits (name : Label) : Prop :=
  name.name.utf8ByteSize < 2 ^ 64

namespace Operand

inductive Fits : Operand Value → Prop where
  | var {name} : name.Fits → Fits (.var name)
  | constant {value} : value.Fits → Fits (.constant value)
  | array {elements} : elements.length < 2 ^ 64 → (∀ element ∈ elements, Fits element) →
      Fits (.array elements)
  | label {name} : name.Fits → Fits (.label name)
  | self : Fits .self

theorem encodeAll_eq_flatMap (elements : List (Operand Value)) :
    encodeAll elements = elements.flatMap encode := by
  induction elements with
  | nil => rfl
  | cons first rest ih => rw [encodeAll, ih, List.flatMap_cons]

theorem encode_mem_spelling {operand : Operand Value} (fits : operand.Fits) :
    operand.encode ∈ operand.spelling := by
  induction fits with
  | var fits => exact encodeNumbered_mem (by decide) (encodeString_mem fits)
  | constant fits => exact encodeNumbered_mem (by decide) (Value.encode_mem_spelling fits)
  | @array elements countable fits ih =>
      rw [encode, encodeAll_eq_flatMap, List.append_assoc, spelling_eq_numbered]
      exact encodeNumbered_mem (by simp) (encodeSequence_mem countable ih)
  | label fits => exact encodeNumbered_mem (by decide) (encodeString_mem fits)
  | self => exact encodeNumbered_mem (by decide) Language.nil_mem_one

theorem reads_decoder {operand : Operand Value} (fits : operand.Fits) :
    Reads decoder operand.encode operand :=
  Accepts.reads (fun _ => accepts_decoder) (encode_mem_spelling fits)

end Operand

theorem Operation.number_lt (operation : Operation) : operation.number < 2 ^ 32 := by
  cases operation <;> decide

namespace Instruction

structure Fits (instruction : Instruction Value) : Prop where
  operands : ∀ operand ∈ instruction.operands, operand.Fits
  result : ∀ name ∈ instruction.result?, name.Fits
  label : ∀ name ∈ instruction.label?, name.Fits

theorem encodeFields_mem_fields {instruction : Instruction Value} (fits : instruction.Fits) :
    instruction.encodeFields ∈ instruction.fields := by
  obtain ⟨operandsFit, resultFits, labelFits⟩ := fits
  cases instruction with
  | copy result source =>
      exact Language.append_mem_mul (encodeString_mem (resultFits result rfl))
        (Operand.encode_mem_spelling (operandsFit source List.mem_cons_self))
  | getArray result array index takeRest =>
      rw [encodeFields, List.append_assoc, List.append_assoc]
      exact Language.append_mem_mul (encodeString_mem (resultFits result rfl))
        (Language.append_mem_mul
          (Operand.encode_mem_spelling (operandsFit array List.mem_cons_self))
          (Language.append_mem_mul (encodeNat_mem_nat64 index.toNat_lt) (encodeBool_mem takeRest)))
  | label name => exact encodeString_mem (labelFits name rfl)
  | jump target => exact encodeString_mem (labelFits target rfl)
  | beq first second target =>
      have firstFits := operandsFit first List.mem_cons_self
      have secondFits := operandsFit second (List.mem_cons_of_mem _ List.mem_cons_self)
      rw [encodeFields, List.append_assoc]
      exact Language.append_mem_mul (Operand.encode_mem_spelling firstFits)
        (Language.append_mem_mul (Operand.encode_mem_spelling secondFits)
          (encodeString_mem (labelFits target rfl)))
  | ret value => exact Operand.encode_mem_spelling (operandsFit value List.mem_cons_self)

theorem encode_mem_spelling {instruction : Instruction Value} (fits : instruction.Fits) :
    instruction.encode ∈ instruction.spelling :=
  encodeNumbered_mem instruction.operation.number_lt (encodeFields_mem_fields fits)

theorem reads_decoder {instruction : Instruction Value} (fits : instruction.Fits) :
    Reads decoder instruction.encode instruction :=
  Accepts.reads (fun _ => accepts_decoder) (encode_mem_spelling fits)

end Instruction

namespace Code

structure Fits (code : Code Value) : Prop where
  countable : code.length < 2 ^ 64
  instructions : ∀ instruction ∈ code, instruction.Fits

theorem encode_mem_spelling {code : Code Value} (fits : code.Fits) : code.encode ∈ code.spelling :=
  encodeSequence_mem fits.countable fun instruction member =>
    Instruction.encode_mem_spelling (fits.instructions instruction member)

theorem reads_decoder {code : Code Value} (fits : code.Fits) : Reads decoder code.encode code :=
  Accepts.reads (fun _ => accepts_decoder) (encode_mem_spelling fits)

end Code

/-- Whatever follows it, what was written is read back and nothing more is taken. Values with
storage are read back as the values they stand for, and a tail as the elements it shows: it is
written as an array of these, and its elements alone are read back as well. -/
theorem Wire.decoder_encode_append (rest : List UInt8) :
    (∀ value : Value, value.Fits → Value.decoder (value.encode ++ rest) = some (value, rest)) ∧
    (∀ operand : Operand Value, operand.Fits →
      Operand.decoder (operand.encode ++ rest) = some (operand, rest)) ∧
    (∀ instruction : Instruction Value, instruction.Fits →
      Instruction.decoder (instruction.encode ++ rest) = some (instruction, rest)) ∧
    (∀ code : Code Value, code.Fits → Code.decoder (code.encode ++ rest) = some (code, rest)) ∧
    (∀ shared : SharedValue, shared.value.Fits →
      Value.decoder (shared.encode ++ rest) = some (shared.value, rest)) ∧
    ∀ (array : SharedArray SharedValue) (index : Nat),
      let shown := (array.toList.map SharedValue.value).drop index
      (SharedValue.array (array.tail index)).encode = (Value.array shown).encode ∧
      ((SharedValue.array array).value.Fits →
        Value.decoder ((SharedValue.array (array.tail index)).encode ++ rest) =
          some (.array shown, rest) ∧
        Decoder.sequence Value.decoder (SharedValue.encodeElements (array.tail index) ++ rest) =
          some (shown, rest)) := by
  refine ⟨fun _ fits => Value.reads_decoder fits rest,
    fun _ fits => Operand.reads_decoder fits rest,
    fun _ fits => Instruction.reads_decoder fits rest, fun _ fits => Code.reads_decoder fits rest,
    ?_, ?_⟩
  · intro shared fits
    rw [SharedValue.encode_eq]
    exact Value.reads_decoder fits rest
  · intro array index shown
    have tailShown : (SharedValue.array (array.tail index)).value = .array shown := by
      rw [SharedValue.value_array, SharedArray.toList_tail, List.map_drop]
    have written : (SharedValue.array (array.tail index)).encode = (Value.array shown).encode := by
      rw [SharedValue.encode_eq, tailShown]
    refine ⟨written, ?_⟩
    intro fits
    rw [SharedValue.value_array] at fits
    have shownFits : (Value.array shown).Fits := Value.fits_drop fits index
    constructor
    · rw [written]
      exact Value.reads_decoder shownFits rest
    · rw [SharedValue.encodeElements_eq, SharedArray.toList_tail, List.map_drop]
      exact Value.reads_elements shownFits rest

/-- Extracts far past the end of a literal that holds the least integer, a NaN with a payload and
characters of several bytes. -/
def farExtraction : Code Value := [
  .getArray ⟨"näme"⟩ (.array [
    .constant (.array [.array [], .scalar (.fixnum Int64.minValue),
      .scalar (.float ⟨0xfff8000000000001⟩), .scalar (.str "λ→\u0000")]),
    .array [.self, .label ⟨""⟩]]) 0xffffffffffffffff true,
  .ret (.var ⟨"näme"⟩)]

theorem farExtraction_fits : farExtraction.Fits := by
  have nameFits : Variable.Fits ⟨"näme"⟩ := by unfold Variable.Fits; decide
  have textFits : Scalar.Fits (.str "λ→\u0000") := by unfold Scalar.Fits; decide
  have labelFits : Label.Fits ⟨""⟩ := by unfold Label.Fits; decide
  have constantFits : Value.Fits (.array [.array [], .scalar (.fixnum Int64.minValue),
      .scalar (.float ⟨0xfff8000000000001⟩), .scalar (.str "λ→\u0000")]) := by
    refine .array (by decide) ?_
    simp only [List.forall_mem_cons]
    exact ⟨.array (by decide) nofun, .scalar trivial, .scalar trivial, .scalar textFits, nofun⟩
  have literalFits : Operand.Fits (.array [.self, .label ⟨""⟩]) := by
    refine .array (by decide) ?_
    simp only [List.forall_mem_cons]
    exact ⟨.self, .label labelFits, nofun⟩
  refine ⟨by decide, ?_⟩
  simp only [farExtraction, List.forall_mem_cons]
  refine ⟨⟨?_, ?_, nofun⟩, ⟨?_, nofun, nofun⟩, nofun⟩
  · simp only [Instruction.operands, List.forall_mem_singleton]
    refine .array (by decide) ?_
    simp only [List.forall_mem_cons]
    exact ⟨.constant constantFits, literalFits, nofun⟩
  · simpa [Instruction.result?] using nameFits
  · simpa [Instruction.operands] using Operand.Fits.var nameFits

/-- An array in the middle of its storage, which holds another one. -/
def innerArray : SharedArray SharedValue :=
  ⟨4, [.scalar .nil, .scalar (.bool true), .array ⟨3, [.scalar .nil], 0⟩], 1⟩

theorem innerArray_fits : (SharedValue.array innerArray).value.Fits := by
  have shown : (SharedValue.array innerArray).value =
      .array [.scalar (.bool true), .array [.nil]] := rfl
  have nestedFits : Value.Fits (.array [.nil]) :=
    .array (by decide) (List.forall_mem_singleton.mpr (.scalar trivial))
  rw [shown]
  refine .array (by decide) ?_
  simp only [List.forall_mem_cons]
  exact ⟨.scalar trivial, nestedFits, nofun⟩

theorem farExtraction_read_back :
    farExtraction.Fits ∧ (SharedValue.array innerArray).value.Fits ∧
      Code.decoder (farExtraction.encode ++ [0xff]) = some (farExtraction, [0xff]) ∧
      Value.decoder ((SharedValue.array (innerArray.tail 1)).encode ++ [0xff]) =
        some (.array [.array [.nil]], [0xff]) := by
  have readBack := Wire.decoder_encode_append [0xff]
  obtain ⟨-, -, -, codeRead, -, tailRead⟩ := readBack
  obtain ⟨-, readTail⟩ := tailRead innerArray 1
  exact ⟨farExtraction_fits, innerArray_fits, codeRead farExtraction farExtraction_fits,
    (readTail innerArray_fits).1⟩

end LinearIR
