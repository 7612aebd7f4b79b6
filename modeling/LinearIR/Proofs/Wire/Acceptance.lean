import Mathlib.Computability.Language
import Mathlib.Order.CompletePartialOrder
import LinearIR.Proofs.Wire.Primitive

/-!
# What a decoder accepts

The byte strings that spell a value form a language. A decoder accepts a family of languages if it
yields a value exactly on the input that begins with a spelling of it, and leaves what follows the
spelling. Decoders in sequence accept the products of their languages, so what a decoder accepts
is read off its definition, malformed input included.
-/

set_option autoImplicit false

namespace LinearIR.Wire

/-! ## Spellings of primitives -/

namespace Spelling

def digits (most number : Nat) : Language UInt8 :=
  {bytes | Digits number bytes ∧ bytes.length ≤ most}

def bounded (most bound number : Nat) : Language UInt8 :=
  ⨆ _ : number < bound, digits most number

def nat32 : Nat → Language UInt8 :=
  bounded 5 (2 ^ 32)

def nat64 : Nat → Language UInt8 :=
  bounded 10 (2 ^ 64)

def byte (value : UInt8) : Language UInt8 :=
  {[value]}

def bool (value : Bool) : Language UInt8 :=
  byte (if value then 1 else 0)

def int64 (value : Int64) : Language UInt8 :=
  nat64 (zigzag value.toInt)

def bits (value : UInt64) : Language UInt8 :=
  {bytes | bytes.length = 8 ∧ ofLittleEndian bytes = value.toNat}

def sequence {α : Type} (element : α → Language UInt8) (elements : List α) : Language UInt8 :=
  nat64 elements.length * (elements.map element).prod

def string (value : String) : Language UInt8 :=
  sequence byte value.toUTF8.data.toList

theorem mem_bounded {most bound number : Nat} {taken : List UInt8} :
    taken ∈ bounded most bound number ↔
      number < bound ∧ Digits number taken ∧ taken.length ≤ most := by
  rw [bounded, Language.mem_iSup, exists_prop]
  rfl

@[simp]
theorem notMem_bot (taken : List UInt8) : taken ∉ (⊥ : Language UInt8) :=
  id

@[simp]
theorem mul_bot (language : Language UInt8) : language * ⊥ = ⊥ :=
  mul_zero language

@[simp]
theorem mem_byte {value : UInt8} {taken : List UInt8} : taken ∈ byte value ↔ taken = [value] :=
  Iff.rfl

theorem digits_zero (number : Nat) : digits 0 number = ⊥ := by
  ext taken
  refine iff_of_false (fun spelled => ?_) (notMem_bot taken)
  exact absurd spelled.1.length_pos (Nat.not_lt.mpr spelled.2)

theorem digits_succ (most number : Nat) :
    digits (most + 1) number = ⨆ first, byte first *
      if first.toNat < 128 then ⨆ _ : first.toNat = number, 1
      else ⨆ upper, ⨆ _ : first.toNat - 128 + 128 * upper = number, digits most upper := by
  ext taken
  simp only [Language.mem_iSup, Language.mem_mul, mem_byte, exists_eq_left]
  constructor
  · intro spelled
    obtain ⟨spelled, fits⟩ := spelled
    cases spelled with
    | @last byte final =>
        refine ⟨byte, [], ?_, rfl⟩
        rw [if_pos final]
        simp
    | @more byte upper bytes continued spelled =>
        refine ⟨byte, bytes, ?_, rfl⟩
        rw [if_neg (Nat.not_lt.mpr continued)]
        simp only [Language.mem_iSup, exists_prop]
        exact ⟨upper, rfl, spelled, Nat.le_of_succ_le_succ fits⟩
  · intro spelled
    obtain ⟨first, rest, spelled, rfl⟩ := spelled
    split at spelled
    · next final =>
      simp only [Language.mem_iSup, Language.mem_one, exists_prop] at spelled
      obtain ⟨rfl, rfl⟩ := spelled
      exact ⟨.last final, Nat.le_add_left 1 most⟩
    · next continued =>
      simp only [Language.mem_iSup, exists_prop] at spelled
      obtain ⟨upper, rfl, spelled, fits⟩ := spelled
      exact ⟨.more (Nat.not_lt.mp continued) spelled, Nat.succ_le_succ fits⟩

theorem prod_byte (bytes : List UInt8) : (bytes.map byte).prod = {bytes} := by
  induction bytes with
  | nil => rfl
  | cons first rest ih =>
      rw [List.map_cons, List.prod_cons, ih]
      exact Set.image2_singleton

end Spelling

/-! ## The length of a spelling -/

/-- No word of the language is shorter. -/
def AtLeast (count : Nat) (language : Language UInt8) : Prop :=
  ∀ taken ∈ language, count ≤ taken.length

theorem AtLeast.mul {count count' : Nat} {language language' : Language UInt8}
    (first : AtLeast count language) (second : AtLeast count' language') :
    AtLeast (count + count') (language * language') := by
  intro both spelled
  obtain ⟨taken, takenFirst, taken', takenSecond, rfl⟩ := Language.mem_mul.mp spelled
  rw [List.length_append]
  exact Nat.add_le_add (first taken takenFirst) (second taken' takenSecond)

theorem atLeast_zero (language : Language UInt8) : AtLeast 0 language :=
  fun _ _ => Nat.zero_le _

theorem AtLeast.mul_left {count : Nat} {language : Language UInt8}
    (atLeast : AtLeast count language) (first : Language UInt8) :
    AtLeast count (first * language) := by
  rw [← Nat.zero_add count]
  exact (atLeast_zero first).mul atLeast

theorem AtLeast.mul_right {count : Nat} {language : Language UInt8}
    (atLeast : AtLeast count language) (second : Language UInt8) :
    AtLeast count (language * second) :=
  atLeast.mul (atLeast_zero second)

theorem atLeast_bounded (most bound number : Nat) :
    AtLeast 1 (Spelling.bounded most bound number) :=
  fun _ spelled => (Spelling.mem_bounded.mp spelled).2.1.length_pos

/-! ## Decoders in sequence -/

namespace Decoder

/-- Whatever follows them, the decoder takes exactly these bytes. -/
def Reads {α : Type} (decoder : Decoder α) (bytes : List UInt8) (value : α) : Prop :=
  ∀ rest, decoder (bytes ++ rest) = some (value, rest)

/-- On input of at most `limit` bytes, the decoder takes a spelling of the value that it yields,
and every spelling is taken. -/
def Accepts {α : Type} (limit : Nat) (decoder : Decoder α) (spelling : α → Language UInt8) : Prop :=
  ∀ input : List UInt8, input.length ≤ limit → ∀ value rest,
    decoder input = some (value, rest) ↔ ∃ taken ∈ spelling value, taken ++ rest = input

section Accepts

variable {α β : Type} {limit : Nat} {decoder : Decoder α} {spelling : α → Language UInt8}

theorem Accepts.congr {spelling' : α → Language UInt8} (accepts : Accepts limit decoder spelling)
    (same : ∀ value, spelling value = spelling' value) : Accepts limit decoder spelling' := by
  rwa [← funext same]

theorem Accepts.eq_some_iff (accepts : ∀ limit, Accepts limit decoder spelling)
    {input rest : List UInt8} {value : α} :
    decoder input = some (value, rest) ↔ ∃ taken ∈ spelling value, taken ++ rest = input :=
  accepts input.length input (Nat.le_refl _) value rest

theorem Accepts.reads (accepts : ∀ limit, Accepts limit decoder spelling) {bytes : List UInt8}
    {value : α} (spelled : bytes ∈ spelling value) : Reads decoder bytes value :=
  fun _ => (Accepts.eq_some_iff accepts).mpr ⟨bytes, spelled, rfl⟩

theorem accepts_pure (result : α) :
    Accepts limit (pure result) fun value => ⨆ _ : result = value, 1 := by
  intro input _ value rest
  change some (result, input) = some (value, rest) ↔ _
  simp only [Language.mem_iSup, Language.mem_one, exists_prop]
  constructor
  · rintro ⟨⟩
    exact ⟨[], ⟨rfl, rfl⟩, rfl⟩
  · rintro ⟨taken, ⟨rfl, rfl⟩, rfl⟩
    rfl

theorem accepts_failure : Accepts limit (failure : Decoder α) fun _ => ⊥ := by
  intro input _ value rest
  constructor
  · nofun
  · rintro ⟨taken, ⟨⟩, -⟩

/-- What comes second sees less of the input, by at least what the first always takes. -/
theorem Accepts.bind_of_atLeast {next : α → Decoder β} {spelling' : α → β → Language UInt8}
    (least : Nat) (acceptsFirst : Accepts (limit + least) decoder spelling)
    (atLeast : ∀ value, AtLeast least (spelling value))
    (acceptsNext : ∀ value, Accepts limit (next value) (spelling' value)) :
    Accepts (limit + least) (decoder >>= next) fun result =>
      ⨆ value, spelling value * spelling' value result := by
  intro input short result rest
  change (decoder input).bind (fun read => next read.1 read.2) = some (result, rest) ↔ _
  simp only [Option.bind_eq_some_iff, Prod.exists, Language.mem_iSup, Language.mem_mul]
  constructor
  · rintro ⟨value, left, readFirst, readNext⟩
    obtain ⟨taken, spelled, rfl⟩ := (acceptsFirst input short value left).mp readFirst
    have shorter : left.length ≤ limit := by
      have := atLeast value taken spelled
      rw [List.length_append] at short
      omega
    obtain ⟨taken', spelled', rfl⟩ := (acceptsNext value left shorter result rest).mp readNext
    exact ⟨taken ++ taken', ⟨value, taken, spelled, taken', spelled', rfl⟩,
      List.append_assoc taken taken' rest⟩
  · rintro ⟨both, ⟨value, taken, spelled, taken', spelled', rfl⟩, rfl⟩
    have shorter : (taken' ++ rest).length ≤ limit := by
      have := atLeast value taken spelled
      simp only [List.length_append] at short ⊢
      omega
    refine ⟨value, taken' ++ rest, (acceptsFirst _ short value _).mpr ⟨taken, spelled, ?_⟩,
      (acceptsNext value _ shorter result rest).mpr ⟨taken', spelled', rfl⟩⟩
    rw [List.append_assoc]

theorem Accepts.bind {next : α → Decoder β} (acceptsFirst : Accepts limit decoder spelling)
    (spelling' : α → β → Language UInt8)
    (acceptsNext : ∀ value, Accepts limit (next value) (spelling' value)) :
    Accepts limit (decoder >>= next) fun result =>
      ⨆ value, spelling value * spelling' value result :=
  Accepts.bind_of_atLeast 0 acceptsFirst (fun value => atLeast_zero (spelling value)) acceptsNext

theorem Accepts.map (accepts : Accepts limit decoder spelling) (make : α → β) :
    Accepts limit (do return make (← decoder)) fun result =>
      ⨆ value, ⨆ _ : make value = result, spelling value := by
  refine (accepts.bind _ fun value => accepts_pure (make value)).congr fun result => ?_
  simp only [Language.mul_iSup, mul_one]

/-! ## Decoders of primitives -/

theorem accepts_byte : Accepts limit Decoder.byte Spelling.byte := by
  intro input _ value rest
  cases input with
  | nil => simp [Decoder.byte, Spelling.mem_byte]
  | cons first left =>
      simp [Decoder.byte, Spelling.mem_byte, eq_comm]

theorem accepts_digits (most : Nat) :
    Accepts limit (Decoder.digits most) (Spelling.digits most) := by
  induction most with
  | zero => exact accepts_failure.congr fun number => (Spelling.digits_zero number).symm
  | succ most ih =>
      refine (accepts_byte.bind _ fun first => ?_).congr
        fun number => (Spelling.digits_succ most number).symm
      by_cases final : first < 128
      · have small : first.toNat < 128 := UInt8.lt_iff_toNat_lt.mp final
        simpa only [final, small, if_true] using accepts_pure first.toNat
      · have large : ¬first.toNat < 128 := fun small => final (UInt8.lt_iff_toNat_lt.mpr small)
        simpa only [final, large, if_false] using
          ih.map fun upper => first.toNat - 128 + 128 * upper

theorem accepts_bounded (most bound : Nat) :
    Accepts limit (Decoder.bounded most bound) (Spelling.bounded most bound) := by
  refine ((accepts_digits most).bind
    (fun number result => ⨆ _ : number = result, ⨆ _ : number < bound, 1) ?_).congr ?_
  · intro number
    split
    · next below => simpa only [below, iSup_pos] using accepts_pure number
    · next above => simpa [above] using accepts_failure
  · intro number
    simp only [Language.mul_iSup, mul_one, iSup_iSup_eq_left, Spelling.bounded]

theorem accepts_nat32 : Accepts limit Decoder.nat32 Spelling.nat32 :=
  accepts_bounded 5 (2 ^ 32)

theorem accepts_nat64 : Accepts limit Decoder.nat64 Spelling.nat64 :=
  accepts_bounded 10 (2 ^ 64)

theorem accepts_bool : Accepts limit Decoder.bool Spelling.bool := by
  refine (accepts_byte.bind
    (fun byte result => ⨆ _ : (if result then 1 else 0) = byte, 1) ?_).congr ?_
  · intro byte
    split
    · next zero =>
      obtain rfl : byte = 0 := UInt8.toNat_inj.mp zero
      exact (accepts_pure false).congr fun result => by cases result <;> simp
    · next one =>
      obtain rfl : byte = 1 := UInt8.toNat_inj.mp one
      exact (accepts_pure true).congr fun result => by cases result <;> simp
    · next notZero notOne =>
      have unwritten (result : Bool) : ¬(if result then 1 else 0) = byte := by
        intro same
        subst same
        cases result with
        | false => exact notZero rfl
        | true => exact notOne rfl
      simpa only [unwritten, iSup_false] using accepts_failure
  · intro value
    simp only [Language.mul_iSup, mul_one, iSup_iSup_eq_right, Spelling.bool]

theorem accepts_int64 : Accepts limit Decoder.int64 Spelling.int64 := by
  refine (accepts_nat64.map fun number => Int64.ofInt (unzigzag number)).congr fun value => ?_
  ext taken
  simp only [Language.mem_iSup, exists_prop, Spelling.int64]
  constructor
  · rintro ⟨number, rfl, spelled⟩
    have below : number < 2 ^ 64 := (Spelling.mem_bounded.mp spelled).1
    rwa [toInt_ofInt_unzigzag below, zigzag_unzigzag]
  · intro spelled
    refine ⟨zigzag value.toInt, ?_, spelled⟩
    rw [unzigzag_zigzag, Int64.ofInt_toInt]

theorem accepts_repeated {element : Decoder α} (accepts : Accepts limit element spelling)
    (count : Nat) :
    Accepts limit (repeated element count) fun elements =>
      ⨆ _ : elements.length = count, (elements.map spelling).prod := by
  induction count with
  | zero => exact (accepts_pure []).congr fun elements => by cases elements <;> simp
  | succ count ih =>
      refine (accepts.bind _ fun first => ih.map (first :: ·)).congr fun elements => ?_
      cases elements with
      | nil => simp
      | cons first rest =>
          ext taken
          simp only [Language.mul_iSup, List.cons.injEq, List.map_cons, List.prod_cons,
            List.length_cons, Nat.add_right_cancel_iff, Language.mem_iSup, exists_prop]
          constructor
          · rintro ⟨_, _, ⟨rfl, rfl⟩, counted, spelled⟩
            exact ⟨counted, spelled⟩
          · rintro ⟨counted, spelled⟩
            exact ⟨_, _, ⟨rfl, rfl⟩, counted, spelled⟩

theorem accepts_sequence {element : Decoder α} (accepts : Accepts limit element spelling) :
    Accepts limit (sequence element) (Spelling.sequence spelling) := by
  refine (accepts_nat64.bind _ fun count => accepts_repeated accepts count).congr fun elements => ?_
  simp only [Spelling.sequence, Language.mul_iSup, iSup_iSup_eq_right]

theorem accepts_bits : Accepts limit Decoder.bits Spelling.bits := by
  refine ((accepts_repeated accepts_byte 8).map fun bytes =>
    (ofLittleEndian bytes).toUInt64).congr fun value => ?_
  ext taken
  simp only [Language.mem_iSup, exists_prop, Spelling.prod_byte]
  constructor
  · rintro ⟨bytes, rfl, counted, rfl⟩
    have below : ofLittleEndian taken < 2 ^ 64 := by
      have := ofLittleEndian_lt taken
      rwa [counted] at this
    exact ⟨counted, (UInt64.toNat_ofNat_of_lt' below).symm⟩
  · rintro ⟨counted, same⟩
    refine ⟨taken, ?_, counted, rfl⟩
    rw [same, Nat.toUInt64, UInt64.ofNat_toNat]

theorem accepts_string : Accepts limit Decoder.string Spelling.string := by
  refine ((accepts_sequence accepts_byte).bind
    (fun bytes result => ⨆ _ : result.toUTF8.data.toList = bytes, 1) ?_).congr ?_
  · intro bytes
    split
    · next string valid =>
      have written (result : String) : result.toUTF8.data.toList = bytes ↔ string = result := by
        rw [← fromUTF8?_eq_some_iff, valid, Option.some.injEq]
      simpa only [written] using accepts_pure string
    · next invalid =>
      have unwritten (result : String) : ¬result.toUTF8.data.toList = bytes := by
        rw [← fromUTF8?_eq_some_iff, invalid]
        nofun
      simpa only [unwritten, iSup_false] using accepts_failure
  · intro value
    simp only [Language.mul_iSup, mul_one, iSup_iSup_eq_right, Spelling.string]

/-- An index is the number that is spelled, as one of 64 bits is not cut down. -/
theorem accepts_index {next : UInt64 → Decoder β} {spelling' : UInt64 → β → Language UInt8}
    (accepts : ∀ index, Accepts limit (next index) (spelling' index)) :
    Accepts limit (Decoder.nat64 >>= fun number => next number.toUInt64) fun result =>
      ⨆ index : UInt64, Spelling.nat64 index.toNat * spelling' index result := by
  refine (accepts_nat64.bind _ fun number => accepts number.toUInt64).congr fun result => ?_
  ext taken
  simp only [Language.mem_iSup, Language.mem_mul]
  constructor
  · rintro ⟨number, head, spelled, next⟩
    have below : number < 2 ^ 64 := (Spelling.mem_bounded.mp spelled).1
    refine ⟨number.toUInt64, head, ?_, next⟩
    rwa [Nat.toUInt64, UInt64.toNat_ofNat_of_lt' below]
  · rintro ⟨index, head, spelled, next⟩
    refine ⟨index.toNat, head, spelled, ?_⟩
    rwa [Nat.toUInt64, UInt64.ofNat_toNat]

end Accepts

end Decoder

end LinearIR.Wire
