import LinearIR.Proofs.Wire.RoundTrip
import LinearIR.Proofs.Wire.Spelling

/-!
# What is written is the shortest spelling

A decoder grants a term many spellings, because a number may lead with zeros. What the encoder
writes is the one of them that is shorter than all others. Nothing else is granted, and no number
that is spelled is cut down to the width of the field that holds it.
-/

set_option autoImplicit false

namespace LinearIR

open Wire Wire.Decoder

namespace Wire

/-! ## Shortest words -/

/-- The word is shorter than all others of the language. It belongs to the language if anything
does. -/
def Shortest (word : List UInt8) (language : Language UInt8) : Prop :=
  ∀ taken ∈ language, word ∈ language ∧ word.length ≤ taken.length ∧
    (word.length = taken.length → word = taken)

theorem shortest_only (word : List UInt8) : Shortest word {word} := by
  rintro taken rfl
  exact ⟨rfl, Nat.le_refl _, fun _ => rfl⟩

theorem Shortest.append {word word' : List UInt8} {language language' : Language UInt8}
    (first : Shortest word language) (second : Shortest word' language') :
    Shortest (word ++ word') (language * language') := by
  intro both spelled
  obtain ⟨taken, takenFirst, taken', takenSecond, rfl⟩ := Language.mem_mul.mp spelled
  obtain ⟨member, shorter, same⟩ := first taken takenFirst
  obtain ⟨member', shorter', same'⟩ := second taken' takenSecond
  refine ⟨Language.append_mem_mul member member', ?_, ?_⟩
  · rw [List.length_append, List.length_append]
    exact Nat.add_le_add shorter shorter'
  · intro sameLength
    rw [List.length_append, List.length_append] at sameLength
    rw [same (by omega), same' (by omega)]

theorem shortest_flatMap {α : Type} {encode : α → List UInt8} {spelling : α → Language UInt8}
    {elements : List α}
    (shortest : ∀ element ∈ elements, Shortest (encode element) (spelling element)) :
    Shortest (elements.flatMap encode) (elements.map spelling).prod := by
  induction elements with
  | nil => exact shortest_only []
  | cons first rest ih =>
      obtain ⟨shortestFirst, shortestRest⟩ := List.forall_mem_cons.mp shortest
      exact shortestFirst.append (ih shortestRest)

/-! ## Primitives -/

theorem shortest_bounded (most : Nat) {bound number : Nat} (narrow : bound ≤ 128 ^ 10) :
    Shortest (encodeNat number) (Spelling.bounded most bound number) := by
  intro taken spelled
  obtain ⟨below, spelled, fits⟩ := Spelling.mem_bounded.mp spelled
  have written : number < 128 ^ (9 + 1) := Nat.lt_of_lt_of_le below narrow
  obtain ⟨shorter, same⟩ := spelled.shortest written
  refine ⟨Spelling.mem_bounded.mpr ⟨below, digits_spell written, ?_⟩, shorter, same⟩
  exact Nat.le_trans shorter fits

theorem shortest_nat32 (number : Nat) : Shortest (encodeNat number) (Spelling.nat32 number) :=
  shortest_bounded 5 (by decide)

theorem shortest_nat64 (number : Nat) : Shortest (encodeNat number) (Spelling.nat64 number) :=
  shortest_bounded 10 (by decide)

theorem shortest_bits (value : UInt64) : Shortest (encodeBits value) (Spelling.bits value) := by
  rintro taken ⟨counted, same⟩
  have written : encodeBits value = taken := by
    rw [encodeBits, ← same, ← counted, littleEndian_ofLittleEndian]
  rw [written]
  exact ⟨⟨counted, same⟩, Nat.le_refl _, fun _ => rfl⟩

theorem shortest_bool (value : Bool) : Shortest (encodeBool value) (Spelling.bool value) :=
  shortest_only _

theorem shortest_sequence {α : Type} {encode : α → List UInt8} {spelling : α → Language UInt8}
    {elements : List α}
    (shortest : ∀ element ∈ elements, Shortest (encode element) (spelling element)) :
    Shortest (encodeNat elements.length ++ elements.flatMap encode)
      (Spelling.sequence spelling elements) :=
  (shortest_nat64 elements.length).append (shortest_flatMap shortest)

theorem shortest_string (value : String) :
    Shortest (encodeString value) (Spelling.string value) := by
  rw [Spelling.string, Spelling.sequence, Spelling.prod_byte]
  exact (shortest_nat64 _).append (shortest_only _)

theorem Shortest.numbered {number : Nat} {word : List UInt8} {contents : Language UInt8}
    (shortest : Shortest word contents) :
    Shortest (encodeNat number ++ word) (Spelling.numbered number contents) :=
  (shortest_nat32 number).append shortest

end Wire

/-! ## Values, operands, instructions and code -/

theorem Scalar.shortest_encode (value : Scalar) :
    Shortest value.encode (Spelling.numbered value.number value.contents) := by
  cases value with
  | nil => exact (shortest_only []).numbered
  | bool value => exact (shortest_bool value).numbered
  | fixnum value => exact (shortest_nat64 _).numbered
  | float value => exact (shortest_bits value.bits).numbered
  | str value => exact (shortest_string value).numbered

theorem Value.shortest_encode (value : Value) : Shortest value.encode value.spelling := by
  induction value using Value.induction with
  | scalar value => exact value.shortest_encode
  | array elements ih =>
      rw [encode, encodeAll_eq_flatMap, List.append_assoc, spelling_eq_numbered]
      exact (shortest_sequence ih).numbered

theorem Operand.shortest_encode (operand : Operand Value) :
    Shortest operand.encode operand.spelling := by
  induction operand using Operand.induction with
  | var name => exact (shortest_string name.name).numbered
  | constant value => exact value.shortest_encode.numbered
  | array elements ih =>
      rw [encode, encodeAll_eq_flatMap, List.append_assoc, spelling_eq_numbered]
      exact (shortest_sequence ih).numbered
  | label name => exact (shortest_string name.name).numbered
  | self => exact (shortest_only []).numbered

theorem Instruction.shortest_encodeFields (instruction : Instruction Value) :
    Shortest instruction.encodeFields instruction.fields := by
  cases instruction with
  | copy result source => exact (shortest_string _).append source.shortest_encode
  | getArray result array index takeRest =>
      rw [encodeFields, List.append_assoc, List.append_assoc]
      exact (shortest_string _).append
        (array.shortest_encode.append ((shortest_nat64 _).append (shortest_bool takeRest)))
  | label name => exact shortest_string _
  | jump target => exact shortest_string _
  | beq first second target =>
      rw [encodeFields, List.append_assoc]
      exact first.shortest_encode.append (second.shortest_encode.append (shortest_string _))
  | ret value => exact value.shortest_encode

theorem Instruction.shortest_encode (instruction : Instruction Value) :
    Shortest instruction.encode instruction.spelling :=
  instruction.shortest_encodeFields.numbered

theorem Code.shortest_encode (code : Code Value) : Shortest code.encode code.spelling :=
  shortest_sequence fun instruction _ => instruction.shortest_encode

/-! ## Decoding arbitrary bytes -/

/-- The decoder of a type grants the spellings of its terms and nothing else, reads back what is
written for what it has read, and never has read less than is written. -/
structure Wire.Decoder.Sound {α : Type} (decoder : Decoder α) (encode : α → List UInt8)
    (spelling : α → Language UInt8) : Prop where
  eq_some_iff : ∀ input value rest,
    decoder input = some (value, rest) ↔ ∃ taken ∈ spelling value, taken ++ rest = input
  reads_back : ∀ input value rest, decoder input = some (value, rest) →
    ∀ following, decoder (encode value ++ following) = some (value, following)
  shortest : ∀ taken value rest, decoder (taken ++ rest) = some (value, rest) →
    (encode value).length ≤ taken.length ∧
      ((encode value).length = taken.length → encode value = taken)

theorem Wire.Decoder.Accepts.sound {α : Type} {decoder : Decoder α} {encode : α → List UInt8}
    {spelling : α → Language UInt8} (accepts : ∀ limit, Accepts limit decoder spelling)
    (shortest : ∀ value, Shortest (encode value) (spelling value)) :
    Sound decoder encode spelling := by
  refine ⟨fun _ _ _ => Accepts.eq_some_iff accepts, ?_, ?_⟩
  · intro input value rest read
    obtain ⟨taken, spelled, -⟩ := (Accepts.eq_some_iff accepts).mp read
    exact Accepts.reads accepts (shortest value taken spelled).1
  · intro taken value rest read
    obtain ⟨taken', spelled, same⟩ := (Accepts.eq_some_iff accepts).mp read
    obtain rfl := List.append_cancel_right same
    exact (shortest value taken' spelled).2

theorem Wire.Decoder.nat64_eq_some_iff {input rest : List UInt8} {number : Nat} :
    Decoder.nat64 input = some (number, rest) ↔ number < 2 ^ 64 ∧
      ∃ taken, Digits number taken ∧ taken.length ≤ 10 ∧ taken ++ rest = input := by
  rw [Accepts.eq_some_iff fun _ => accepts_nat64]
  simp only [Spelling.nat64, Spelling.mem_bounded, and_assoc, exists_and_left]

theorem Wire.Decoder.int64_eq_some_iff {input rest : List UInt8} {value : Int64} :
    Decoder.int64 input = some (value, rest) ↔ ∃ number,
      Decoder.nat64 input = some (number, rest) ∧
      -2 ^ 63 ≤ unzigzag number ∧ unzigzag number < 2 ^ 63 ∧ value.toInt = unzigzag number := by
  change (Decoder.nat64 input).bind (fun read => some (Int64.ofInt (unzigzag read.1), read.2)) =
    some (value, rest) ↔ _
  rw [Option.bind_eq_some_iff]
  constructor
  · rintro ⟨⟨number, left⟩, read, ⟨⟩⟩
    obtain ⟨below, -⟩ := nat64_eq_some_iff.mp read
    exact ⟨number, read, (unzigzag_bounds below).1, (unzigzag_bounds below).2,
      toInt_ofInt_unzigzag below⟩
  · rintro ⟨number, read, -, -, same⟩
    refine ⟨(number, rest), read, ?_⟩
    rw [← same, Int64.ofInt_toInt]

theorem Wire.Decoder.string_eq_some_iff {input rest : List UInt8} {value : String} :
    Decoder.string input = some (value, rest) ↔ ∃ bytes,
      Decoder.sequence Decoder.byte input = some (bytes, rest) ∧
      ByteArray.IsValidUTF8 ⟨bytes.toArray⟩ ∧ value.toUTF8 = ⟨bytes.toArray⟩ := by
  rw [Accepts.eq_some_iff fun _ => accepts_string]
  constructor
  · rintro ⟨taken, spelled, rfl⟩
    refine ⟨value.toUTF8.data.toList, ?_, ?_, ?_⟩
    · exact Accepts.reads (fun _ => accepts_sequence accepts_byte) spelled rest
    · rw [Array.toArray_toList]
      exact value.isValidUTF8
    · rw [Array.toArray_toList]
  · rintro ⟨bytes, read, -, same⟩
    obtain ⟨taken, spelled, rfl⟩ :=
      (Accepts.eq_some_iff fun _ => accepts_sequence accepts_byte).mp read
    refine ⟨taken, ?_, rfl⟩
    rwa [Spelling.string, same]

/-- Whatever the bytes, what is decoded is what they spell: a number is the one of its digits and
in the range of its field, and the bytes of a string are UTF-8. What is written for it decodes to it
and is the shortest of its spellings. -/
theorem Wire.decoder_sound :
    (∀ input number rest, Decoder.nat64 input = some (number, rest) ↔
      number < 2 ^ 64 ∧
        ∃ taken, Digits number taken ∧ taken.length ≤ 10 ∧ taken ++ rest = input) ∧
    (∀ input value rest, Decoder.int64 input = some (value, rest) ↔
      ∃ number, Decoder.nat64 input = some (number, rest) ∧
        -2 ^ 63 ≤ unzigzag number ∧ unzigzag number < 2 ^ 63 ∧ value.toInt = unzigzag number) ∧
    (∀ input value rest, Decoder.string input = some (value, rest) ↔
      ∃ bytes, Decoder.sequence Decoder.byte input = some (bytes, rest) ∧
        ByteArray.IsValidUTF8 ⟨bytes.toArray⟩ ∧ value.toUTF8 = ⟨bytes.toArray⟩) ∧
    Sound Value.decoder Value.encode Value.spelling ∧
    Sound Operand.decoder Operand.encode Operand.spelling ∧
    Sound Instruction.decoder Instruction.encode Instruction.spelling ∧
    Sound Code.decoder Code.encode Code.spelling := by
  exact ⟨fun _ _ _ => nat64_eq_some_iff, fun _ _ _ => int64_eq_some_iff,
    fun _ _ _ => string_eq_some_iff,
    Accepts.sound (fun _ => Value.accepts_decoder) Value.shortest_encode,
    Accepts.sound (fun _ => Operand.accepts_decoder) Operand.shortest_encode,
    Accepts.sound (fun _ => Instruction.accepts_decoder) Instruction.shortest_encode,
    Accepts.sound (fun _ => Code.accepts_decoder) Code.shortest_encode⟩

/-- An array of one integer, with zeros in front of every number. -/
theorem overlongArray_written_shorter :
    Value.decoder [0x85, 0x80, 0x00, 0x81, 0x00, 0x82, 0x00, 0x83, 0x80, 0x00, 0xff] =
        some (.array [.scalar (.fixnum (-2))], [0xff]) ∧
      Value.decoder ((Value.array [.scalar (.fixnum (-2))]).encode ++ [0xff]) =
        some (.array [.scalar (.fixnum (-2))], [0xff]) ∧
      (Value.array [.scalar (.fixnum (-2))]).encode.length ≤ 10 := by
  have read : Value.decoder
      ([0x85, 0x80, 0x00, 0x81, 0x00, 0x82, 0x00, 0x83, 0x80, 0x00] ++ [0xff]) =
        some (.array [.scalar (.fixnum (-2))], [0xff]) := by decide +kernel
  obtain ⟨-, -, -, sound, -⟩ := Wire.decoder_sound
  exact ⟨read, sound.reads_back _ _ _ read [0xff], (sound.shortest _ _ _ read).1⟩

end LinearIR
