import LinearIR.Proofs.Wire.Acceptance
import LinearIR.Wire.Instruction

/-!
# What values, operands and instructions may be spelled as

The spellings of a term are written down by recursion on the term, without regard to how one is
found, and the decoder of each type accepts exactly these.
-/

set_option autoImplicit false

namespace LinearIR

open Wire Wire.Decoder

/-! ## Numbered forms -/

namespace Wire

/-- The number of a form and what follows it. -/
def Spelling.numbered (number : Nat) (contents : Language UInt8) : Language UInt8 :=
  nat32 number * contents

theorem AtLeast.numbered {count number : Nat} {contents : Language UInt8}
    (atLeast : AtLeast count contents) :
    AtLeast (count + 1) (Spelling.numbered number contents) := by
  rw [Nat.add_comm]
  exact (atLeast_bounded _ _ _).mul atLeast

variable {α : Type} {limit : Nat}

theorem Decoder.Accepts.numbered {decoderOf : Nat → Decoder α} (number : α → Nat)
    (contents : α → Language UInt8)
    (accepts : ∀ form, Accepts limit (decoderOf form) fun value =>
      ⨆ _ : number value = form, contents value) :
    Accepts (limit + 1) (Decoder.nat32 >>= decoderOf) fun value =>
      Spelling.numbered (number value) (contents value) := by
  refine (Accepts.bind_of_atLeast 1 accepts_nat32 (fun _ => atLeast_bounded _ _ _) accepts).congr
    fun value => ?_
  simp only [Spelling.numbered, Language.mul_iSup, iSup_iSup_eq_right]

theorem Decoder.accepts_failure_zero {number : α → Nat} {contents : α → Language UInt8} :
    Accepts 0 (failure : Decoder α) fun value =>
      Spelling.numbered (number value) (contents value) := by
  intro input short value rest
  constructor
  · nofun
  · rintro ⟨taken, spelled, rfl⟩
    have := (atLeast_zero _).numbered taken spelled
    rw [List.length_append] at short
    omega

/-- A decoder that takes its depth from the length of the input is not cut short. -/
theorem Decoder.accepts_of_within {within : Nat → Decoder α} {spelling : α → Language UInt8}
    (accepts : ∀ depth, Accepts depth (within depth) spelling) :
    Accepts limit (fun input => within input.length input) spelling :=
  fun input _ => accepts input.length input (Nat.le_refl _)

end Wire

/-! ## Names -/

def Variable.spelling (name : Variable) : Language UInt8 :=
  Spelling.string name.name

def Label.spelling (name : Label) : Language UInt8 :=
  Spelling.string name.name

theorem Variable.accepts_decoder {limit : Nat} : Accepts limit decoder spelling := by
  refine (accepts_string.map Variable.mk).congr fun name => ?_
  cases name
  simp [Variable.spelling]

theorem Label.accepts_decoder {limit : Nat} : Accepts limit decoder spelling := by
  refine (accepts_string.map Label.mk).congr fun name => ?_
  cases name
  simp [Label.spelling]

/-! ## Values -/

namespace Scalar

@[simp]
def number : Scalar → Nat
  | .nil => 0
  | .bool _ => 1
  | .fixnum _ => 2
  | .float _ => 3
  | .str _ => 4

@[simp]
def contents : Scalar → Language UInt8
  | .nil => 1
  | .bool value => Spelling.bool value
  | .fixnum value => Spelling.int64 value
  | .float value => Spelling.bits value.bits
  | .str value => Spelling.string value

end Scalar

namespace Value

mutual

def spelling : Value → Language UInt8
  | .scalar value => Spelling.numbered value.number value.contents
  | .array elements =>
    Spelling.numbered 5 (Spelling.nat64 elements.length * spellingAll elements)

def spellingAll : List Value → Language UInt8
  | [] => 1
  | first :: rest => spelling first * spellingAll rest

end

@[simp]
def number : Value → Nat
  | .scalar value => value.number
  | .array _ => 5

@[simp]
def contents : Value → Language UInt8
  | .scalar value => value.contents
  | .array elements => Spelling.sequence spelling elements

theorem spellingAll_eq_prod (elements : List Value) :
    spellingAll elements = (elements.map spelling).prod := by
  induction elements with
  | nil => rfl
  | cons first rest ih => rw [spellingAll, ih, List.map_cons, List.prod_cons]

theorem spelling_eq_numbered (value : Value) :
    value.spelling = Spelling.numbered value.number value.contents := by
  cases value with
  | scalar value => rfl
  | array elements =>
      rw [spelling, spellingAll_eq_prod]
      rfl

theorem accepts_decoderWithin (depth : Nat) : Accepts depth (decoderWithin depth) spelling := by
  induction depth with
  | zero => exact accepts_failure_zero.congr fun value => (spelling_eq_numbered value).symm
  | succ depth ih =>
      refine (Accepts.numbered number contents fun form => ?_).congr
        fun value => (spelling_eq_numbered value).symm
      split
      · refine (accepts_pure (scalar .nil)).congr fun value => ?_
        rcases value with (_ | _ | _ | _ | _) | _ <;> simp
      · refine (accepts_bool.map fun value => scalar (.bool value)).congr fun value => ?_
        rcases value with (_ | _ | _ | _ | _) | _ <;> simp
      · refine (accepts_int64.map fun value => scalar (.fixnum value)).congr fun value => ?_
        rcases value with (_ | _ | _ | _ | _) | _ <;> simp
      · refine (accepts_bits.map fun value => scalar (.float ⟨value⟩)).congr fun value => ?_
        rcases value with (_ | _ | _ | ⟨⟨⟩⟩ | _) | _ <;> simp
      · refine (accepts_string.map fun value => scalar (.str value)).congr fun value => ?_
        rcases value with (_ | _ | _ | _ | _) | _ <;> simp
      · refine ((accepts_sequence ih).map array).congr fun value => ?_
        rcases value with (_ | _ | _ | _ | _) | _ <;> simp
      · refine accepts_failure.congr fun value => ?_
        rcases value with (_ | _ | _ | _ | _) | _ <;> simp_all [eq_comm]

theorem accepts_decoder {limit : Nat} : Accepts limit decoder spelling :=
  accepts_of_within accepts_decoderWithin

end Value

/-! ## Operands -/

namespace Operand

mutual

def spelling : Operand Value → Language UInt8
  | .var name => Spelling.numbered 0 (Spelling.string name.name)
  | .constant value => Spelling.numbered 1 value.spelling
  | .array elements =>
    Spelling.numbered 2 (Spelling.nat64 elements.length * spellingAll elements)
  | .label name => Spelling.numbered 3 (Spelling.string name.name)
  | .self => Spelling.numbered 4 1

def spellingAll : List (Operand Value) → Language UInt8
  | [] => 1
  | first :: rest => spelling first * spellingAll rest

end

@[simp]
def number : Operand Value → Nat
  | .var _ => 0
  | .constant _ => 1
  | .array _ => 2
  | .label _ => 3
  | .self => 4

@[simp]
def contents : Operand Value → Language UInt8
  | .var name => Spelling.string name.name
  | .constant value => value.spelling
  | .array elements => Spelling.sequence spelling elements
  | .label name => Spelling.string name.name
  | .self => 1

theorem spellingAll_eq_prod (elements : List (Operand Value)) :
    spellingAll elements = (elements.map spelling).prod := by
  induction elements with
  | nil => rfl
  | cons first rest ih => rw [spellingAll, ih, List.map_cons, List.prod_cons]

theorem spelling_eq_numbered (operand : Operand Value) :
    operand.spelling = Spelling.numbered operand.number operand.contents := by
  cases operand with
  | array elements =>
      rw [spelling, spellingAll_eq_prod]
      rfl
  | _ => rfl

theorem accepts_decoderWithin (depth : Nat) : Accepts depth (decoderWithin depth) spelling := by
  induction depth with
  | zero => exact accepts_failure_zero.congr fun operand => (spelling_eq_numbered operand).symm
  | succ depth ih =>
      refine (Accepts.numbered number contents fun form => ?_).congr
        fun operand => (spelling_eq_numbered operand).symm
      split
      · refine (Variable.accepts_decoder.map var).congr fun operand => ?_
        cases operand <;> simp [Variable.spelling]
      · refine (Value.accepts_decoder.map constant).congr fun operand => ?_
        cases operand <;> simp
      · refine ((accepts_sequence ih).map array).congr fun operand => ?_
        cases operand <;> simp
      · refine (Label.accepts_decoder.map label).congr fun operand => ?_
        cases operand <;> simp [Label.spelling]
      · refine (accepts_pure self).congr fun operand => ?_
        cases operand <;> simp
      · refine accepts_failure.congr fun operand => ?_
        cases operand <;> simp_all [eq_comm]

theorem accepts_decoder {limit : Nat} : Accepts limit decoder spelling :=
  accepts_of_within accepts_decoderWithin

end Operand

/-! ## Instructions and code -/

theorem Operation.accepts_decoder {limit : Nat} :
    Accepts limit decoder fun operation => Spelling.nat32 operation.number := by
  refine (accepts_nat32.bind
    (fun form operation => ⨆ _ : operation.number = form, 1) ?_).congr ?_
  · intro form
    split
    · exact (accepts_pure copy).congr fun operation => by cases operation <;> simp [number]
    · exact (accepts_pure getArray).congr fun operation => by cases operation <;> simp [number]
    · exact (accepts_pure label).congr fun operation => by cases operation <;> simp [number]
    · exact (accepts_pure jump).congr fun operation => by cases operation <;> simp [number]
    · exact (accepts_pure beq).congr fun operation => by cases operation <;> simp [number]
    · exact (accepts_pure ret).congr fun operation => by cases operation <;> simp [number]
    · refine accepts_failure.congr fun operation => ?_
      cases operation <;> simp_all [number, eq_comm]
  · intro operation
    simp only [Language.mul_iSup, mul_one, iSup_iSup_eq_right]

namespace Instruction

@[simp]
def fields : Instruction Value → Language UInt8
  | .copy result source => result.spelling * source.spelling
  | .getArray result array index takeRest =>
    result.spelling * (array.spelling * (Spelling.nat64 index.toNat * Spelling.bool takeRest))
  | .label name => name.spelling
  | .jump target => target.spelling
  | .beq first second target => first.spelling * (second.spelling * target.spelling)
  | .ret value => value.spelling

def spelling (instruction : Instruction Value) : Language UInt8 :=
  Spelling.numbered instruction.operation.number instruction.fields

theorem accepts_fieldsDecoder {limit : Nat} (operation : Operation) :
    Accepts limit (fieldsDecoder operation) fun instruction =>
      ⨆ _ : instruction.operation = operation, instruction.fields := by
  cases operation with
  | copy =>
      refine (Variable.accepts_decoder.bind _ fun result =>
        Operand.accepts_decoder.map (copy result)).congr fun instruction => ?_
      ext taken
      cases instruction <;>
        simp [Instruction.operation, Language.mul_iSup, Language.mem_iSup, and_assoc]
  | getArray =>
      refine (Variable.accepts_decoder.bind _ fun result =>
        Operand.accepts_decoder.bind _ fun array =>
          accepts_index fun index =>
            accepts_bool.map (getArray result array index)).congr fun instruction => ?_
      ext taken
      cases instruction <;>
        simp [Instruction.operation, Language.mul_iSup, Language.mem_iSup, and_assoc]
  | label =>
      refine (Label.accepts_decoder.map label).congr fun instruction => ?_
      cases instruction <;> simp [Instruction.operation]
  | jump =>
      refine (Label.accepts_decoder.map jump).congr fun instruction => ?_
      cases instruction <;> simp [Instruction.operation]
  | beq =>
      refine (Operand.accepts_decoder.bind _ fun first =>
        Operand.accepts_decoder.bind _ fun second =>
          Label.accepts_decoder.map (beq first second)).congr fun instruction => ?_
      ext taken
      cases instruction <;>
        simp [Instruction.operation, Language.mul_iSup, Language.mem_iSup, and_assoc]
  | ret =>
      refine (Operand.accepts_decoder.map ret).congr fun instruction => ?_
      cases instruction <;> simp [Instruction.operation]

theorem accepts_decoder {limit : Nat} : Accepts limit decoder spelling := by
  refine (Operation.accepts_decoder.bind _ accepts_fieldsDecoder).congr fun instruction => ?_
  simp only [Language.mul_iSup, iSup_iSup_eq_right, spelling, Spelling.numbered]

end Instruction

def Code.spelling (code : Code Value) : Language UInt8 :=
  Spelling.sequence Instruction.spelling code

theorem Code.accepts_decoder {limit : Nat} : Accepts limit decoder spelling :=
  accepts_sequence Instruction.accepts_decoder

end LinearIR
