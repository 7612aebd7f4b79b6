import LinearIR.Proofs.Comparison.PlainZeros
import LinearIR.Proofs.Text.Decimals
import LinearIR.SharedArray.Values

/-!
# The text of a value tells the value

A text ends where its value ends, whatever delimiter follows: words end at the first character that
no word has, strings at the first quote that is not escaped, and arrays at their own bracket. So a
text is read back in one way only. Only NaNs, which share one word, cannot be told apart.
-/

set_option autoImplicit false

namespace LinearIR

/-! ## Words -/

/-- The characters of a text that is neither quoted nor bracketed. -/
def isWordChar (c : Char) : Bool :=
  c.isAlphanum || c == '-' || c == '.'

theorem isControl_eq_false_of_isWordChar {c : Char} (word : isWordChar c = true) :
    isControl c = false := by
  unfold isWordChar Char.isAlphanum Char.isAlpha Char.isUpper Char.isLower Char.isDigit at word
  simp only [Bool.or_eq_true, Bool.and_eq_true, decide_eq_true_eq, beq_iff_eq, ge_iff_le,
    UInt32.le_iff_toNat_le] at word
  rcases word with (alphanumeric | rfl) | rfl
  · change ((65 ≤ c.toNat ∧ c.toNat ≤ 90) ∨ (97 ≤ c.toNat ∧ c.toNat ≤ 122)) ∨
      (48 ≤ c.toNat ∧ c.toNat ≤ 57) at alphanumeric
    simp only [isControl, Bool.or_eq_false_iff, Bool.and_eq_false_iff, decide_eq_false_iff_not,
      UInt32.le_iff_toNat_le, UInt32.lt_iff_toNat_lt]
    change ¬ c.toNat < 32 ∧ (¬ 127 ≤ c.toNat ∨ ¬ c.toNat < 160)
    omega
  · decide
  · decide

/-- No word goes on here. -/
def Delimited (rest : List Char) : Prop :=
  ∀ c ∈ rest.head?, isWordChar c = false

theorem isWordChar_digitChar : ∀ value < 16, isWordChar (Nat.digitChar value) = true := by
  decide

/-! ## Quoted strings -/

/-- Reads one character of a quoted text. There is none at the closing quote. -/
def readQuotedChar : List Char → Option (Char × List Char)
  | '\\' :: 'n' :: rest => some ('\n', rest)
  | '\\' :: 't' :: rest => some ('\t', rest)
  | '\\' :: 'u' :: '\x7b' :: rest =>
    let digits := rest.takeWhile isWordChar
    some (Char.ofNat (readDigits 16 digits), rest.drop (digits.length + 1))
  | '\\' :: c :: rest => some (c, rest)
  | '"' :: _ => none
  | c :: rest => some (c, rest)
  | [] => none

theorem readQuotedChar_codePoint {digits : List Char} (words : ∀ c ∈ digits, isWordChar c = true)
    (rest : List Char) :
    readQuotedChar ('\\' :: 'u' :: '\x7b' :: (digits ++ '\x7d' :: rest)) =
      some (Char.ofNat (readDigits 16 digits), rest) := by
  have taken : (digits ++ '\x7d' :: rest).takeWhile isWordChar = digits := by
    rw [List.takeWhile_append_of_pos words, List.takeWhile_cons_of_neg (by decide),
      List.append_nil]
  simp [readQuotedChar, taken]

theorem isWordChar_of_mem_codePoint {number : Nat} :
    ∀ c ∈ (Nat.toDigits 16 number).leftpad 4 '0', isWordChar c = true := by
  intro c member
  rcases List.mem_append.mp member with zero | digit
  · rw [(List.mem_replicate.mp zero).2]
    decide
  · obtain ⟨value, small, rfl⟩ := exists_of_mem_toDigits (by decide) digit
    exact isWordChar_digitChar value small

theorem readQuotedChar_quotedChar (c : Char) (rest : List Char) :
    readQuotedChar (quotedChar c ++ rest) = some (c, rest) := by
  unfold quotedChar
  iterate 4
    split
    · next same => rw [same]; rfl
  split
  · have read := readQuotedChar_codePoint (@isWordChar_of_mem_codePoint c.toNat) rest
    rw [readDigits_leftpad, readDigits_toDigits (by decide) (by decide), Char.ofNat_toNat] at read
    simpa using read
  · next backslash _ _ _ => simp [readQuotedChar, backslash]

theorem readQuotedChar_cons (c : Char) (text rest : List Char) :
    readQuotedChar ((c :: text).flatMap quotedChar ++ rest) =
      some (c, text.flatMap quotedChar ++ rest) := by
  rw [List.flatMap_cons, List.append_assoc, readQuotedChar_quotedChar]

theorem flatMap_quotedChar_inj {text text' rest rest' : List Char}
    (same : text.flatMap quotedChar ++ '"' :: rest = text'.flatMap quotedChar ++ '"' :: rest') :
    text = text' ∧ rest = rest' := by
  -- Both texts are read one character at a time, and nothing is read from the closing quote.
  induction text generalizing text' with
  | nil =>
      cases text' with
      | nil => exact ⟨rfl, (List.cons.inj same).2⟩
      | cons c' text' =>
          have read := congrArg readQuotedChar same
          rw [readQuotedChar_cons] at read
          cases read
  | cons c text ih =>
      have read := congrArg readQuotedChar same
      rw [readQuotedChar_cons] at read
      cases text' with
      | nil => cases read
      | cons c' text' =>
          rw [readQuotedChar_cons] at read
          obtain ⟨sameChar, remaining⟩ := Prod.mk.inj (Option.some.inj read)
          obtain ⟨sameText, sameRest⟩ := ih remaining
          exact ⟨by rw [sameChar, sameText], sameRest⟩

theorem quotedChars_append_inj {text text' rest rest' : List Char}
    (same : quotedChars text ++ rest = quotedChars text' ++ rest') :
    text = text' ∧ rest = rest' := by
  refine flatMap_quotedChar_inj ?_
  simpa [quotedChars] using same

theorem isControl_eq_false_of_mem_quotedChar {c : Char} :
    ∀ written ∈ quotedChar c, isControl written = false := by
  have plain : (quotedChar c).all fun written => !isControl written := by
    unfold quotedChar
    iterate 4
      split
      · decide
    split
    · have digits : ((Nat.toDigits 16 c.toNat).leftpad 4 '0').all fun written =>
          !isControl written := by
        refine List.all_eq_true.mpr fun written member => ?_
        rw [isControl_eq_false_of_isWordChar (isWordChar_of_mem_codePoint written member)]
        rfl
      rw [List.all_append, List.all_append, digits]
      decide
    · next printable => simpa using printable
  simpa using plain

theorem isControl_eq_false_of_mem_quotedChars {text : List Char} :
    ∀ written ∈ quotedChars text, isControl written = false := by
  intro written member
  simp only [quotedChars, List.cons_append, List.mem_cons, List.mem_append, List.mem_flatMap,
    List.not_mem_nil, or_false] at member
  rcases member with rfl | ⟨c, -, inside⟩ | rfl
  · decide
  · exact isControl_eq_false_of_mem_quotedChar written inside
  · decide

/-! ## Scalars -/

namespace Binary64

theorem isWordChar_of_mem_textChars {x : Binary64} :
    ∀ c ∈ x.textChars, isWordChar c = true := by
  have unsigned : ∀ c ∈ x.unsignedChars, isWordChar c = true := by
    intro c member
    have word := mem_unsignedChars c member
    simp only [isWordChar]
    grind
  cases number : x.isNaN with
  | true =>
      rw [textChars_of_isNaN number]
      exact List.all_eq_true.mp (by decide)
  | false =>
      rw [textChars_of_number number]
      split
      · exact List.forall_mem_cons.mpr ⟨by decide, unsigned⟩
      · exact unsigned

/-- The text of a float has a character that no text of an integer has. -/
theorem exists_mark_mem_textChars (x : Binary64) :
    ∃ mark ∈ x.textChars, mark = '.' ∨ mark = 'I' ∨ mark = 'N' := by
  cases number : x.isNaN with
  | true =>
      rw [textChars_of_isNaN number]
      exact ⟨'N', by decide, .inr (.inr rfl)⟩
  | false =>
      refine ⟨_, mark_mem_textChars number, ?_⟩
      split <;> simp

end Binary64

namespace Scalar

theorem textChars_fixnum (number : Int64) :
    (fixnum number).textChars =
      (if number.toInt < 0 then ['-'] else []) ++ Nat.toDigits 10 number.toInt.natAbs := by
  rw [textChars]
  cases number.toInt with
  | ofNat magnitude =>
      have notNegative : ¬ Int.ofNat magnitude < 0 := by simp
      rw [if_neg notNegative]
      exact Nat.toList_repr
  | negSucc magnitude =>
      rw [if_pos (Int.negSucc_lt_zero magnitude)]
      change ("-" ++ (magnitude + 1).repr).toList = '-' :: Nat.toDigits 10 (magnitude + 1)
      simp

theorem mem_textChars_fixnum {number : Int64} :
    ∀ c ∈ (fixnum number).textChars, (c.isDigit || c == '-') = true := by
  rw [textChars_fixnum]
  intro c member
  rcases List.mem_append.mp member with sign | digit
  · split at sign <;> simp_all
  · rw [isDigit_of_mem_toDigits c digit]
    rfl

theorem fixnum_eq_of_textChars {first second : Int64}
    (same : (fixnum first).textChars = (fixnum second).textChars) : first = second := by
  rw [textChars_fixnum, textChars_fixnum] at same
  have unsigned {number : Nat} (digits : List Char) : '-' :: digits ≠ Nat.toDigits 10 number := by
    intro signed
    exact absurd (isDigit_of_mem_toDigits '-' (signed ▸ List.mem_cons_self)) (by decide)
  have injective := toDigits_injective (by decide : 1 < 10) (by decide)
  refine Int64.toInt_inj.mp ?_
  split at same <;> split at same
  · have magnitude := injective (List.cons.inj same).2
    omega
  · exact absurd same (unsigned _)
  · exact absurd same.symm (unsigned _)
  · have magnitude := injective same
    omega

theorem isWordChar_of_mem_textChars {value : Scalar} (unquoted : value.kind ≠ .string) :
    ∀ c ∈ value.textChars, isWordChar c = true := by
  cases value with
  | nil => exact List.all_eq_true.mp (by decide)
  | bool value => cases value <;> exact List.all_eq_true.mp (by decide)
  | fixnum number =>
      intro c member
      have digit := mem_textChars_fixnum c member
      simp only [isWordChar, Char.isAlphanum]
      grind
  | float x => exact Binary64.isWordChar_of_mem_textChars
  | str text => exact absurd rfl unquoted

/-- The kind of a scalar whose text is a word. -/
def kindOfWord (word : List Char) : Kind :=
  if word.all fun c => c.isDigit || c == '-' then .fixnum
  else if word.any fun c => c == '.' || c == 'I' || c == 'N' then .float
  else if word.head? = some 'n' then .nil
  else .boolean

theorem kindOfWord_textChars {value : Scalar} (unquoted : value.kind ≠ .string) :
    kindOfWord value.textChars = value.kind := by
  cases value with
  | nil => decide
  | bool value => cases value <;> decide
  | fixnum number => exact if_pos (List.all_eq_true.mpr mem_textChars_fixnum)
  | float x =>
      obtain ⟨mark, member, marks⟩ := Binary64.exists_mark_mem_textChars x
      have notFixnum : ¬ (x.textChars.all fun c => c.isDigit || c == '-') = true := by
        intro digits
        have digit := List.all_eq_true.mp digits mark member
        rcases marks with rfl | rfl | rfl <;> cases digit
      have isFloat : (x.textChars.any fun c => c == '.' || c == 'I' || c == 'N') = true :=
        List.any_eq_true.mpr ⟨mark, member, by rcases marks with rfl | rfl | rfl <;> rfl⟩
      rw [textChars, kindOfWord, if_neg notFixnum, if_pos isFloat]
      rfl
  | str text => exact absurd rfl unquoted

theorem word_inj {first second : Scalar} (unquoted : first.kind ≠ .string)
    (unquoted' : second.kind ≠ .string) (number : ∀ x ∈ first.floats, x.isNaN = false)
    (same : first.textChars = second.textChars) : first = second := by
  have sameKind : first.kind = second.kind := by
    rw [← kindOfWord_textChars unquoted, same, kindOfWord_textChars unquoted']
  cases first <;> cases second <;> try cases sameKind
  case nil => rfl
  case bool first second =>
    cases first <;> cases second <;> first | rfl | cases same
  case fixnum => rw [fixnum_eq_of_textChars same]
  case float first second => rw [Binary64.textChars_inj (number first List.mem_cons_self) same]
  case str => exact absurd rfl unquoted

theorem isControl_eq_false_of_mem_textChars {value : Scalar} :
    ∀ c ∈ value.textChars, isControl c = false := by
  by_cases quoted : value.kind = .string
  · cases value <;> cases quoted
    exact isControl_eq_false_of_mem_quotedChars
  · intro c member
    exact isControl_eq_false_of_isWordChar (isWordChar_of_mem_textChars quoted c member)

theorem kind_ne_array (value : Scalar) : value.kind ≠ .array := by
  cases value <;> nofun

theorem textChars_ne_nil (value : Scalar) : value.textChars ≠ [] := by
  cases value with
  | nil => nofun
  | bool value => cases value <;> nofun
  | fixnum number =>
      rw [textChars_fixnum]
      intro empty
      exact Nat.toDigits_ne_nil (List.append_eq_nil_iff.mp empty).2
  | float x =>
      obtain ⟨mark, member, -⟩ := Binary64.exists_mark_mem_textChars x
      exact List.ne_nil_of_mem member
  | str text => exact List.cons_ne_nil _ _

end Scalar

/-! ## Values -/

namespace Value

theorem exists_front (value : Value) :
    ∃ front rest, value.textChars = front :: rest ∧ front ≠ ']' ∧
      (front = '"' ↔ value.kind = .string) ∧ (front = '[' ↔ value.kind = .array) := by
  cases value with
  | array elements => exact ⟨'[', _, rfl, by decide, by simp [kind], by simp [kind]⟩
  | scalar value =>
      by_cases quoted : value.kind = .string
      · cases value with
        | str text => exact ⟨'"', _, rfl, by decide, by simp [kind, quoted], by simp [kind, quoted]⟩
        | nil | bool _ | fixnum _ | float _ => cases quoted
      · obtain ⟨front, rest, text⟩ := List.exists_cons_of_ne_nil value.textChars_ne_nil
        have word : isWordChar front = true :=
          Scalar.isWordChar_of_mem_textChars quoted front (text ▸ List.mem_cons_self)
        have other {c : Char} (special : isWordChar c = false) : front ≠ c := by
          rintro rfl
          exact absurd word (by simp [special])
        exact ⟨front, rest, text, other rfl, iff_of_false (other rfl) quoted,
          iff_of_false (other rfl) value.kind_ne_array⟩

theorem kind_iff_of_append {first second : Value} {rest rest' : List Char}
    (same : first.textChars ++ rest = second.textChars ++ rest') :
    (first.kind = .string ↔ second.kind = .string) ∧
      (first.kind = .array ↔ second.kind = .array) := by
  obtain ⟨front, text, starts, -, quoted, bracketed⟩ := first.exists_front
  obtain ⟨front', text', starts', -, quoted', bracketed'⟩ := second.exists_front
  rw [starts, starts'] at same
  obtain ⟨rfl, -⟩ := List.cons.inj same
  exact ⟨quoted.symm.trans quoted', bracketed.symm.trans bracketed'⟩

/-- The text of a value ends where the value ends, and no other value has it. -/
def Unambiguous (value : Value) : Prop :=
  ∀ (other : Value) (rest rest' : List Char), Delimited rest → Delimited rest' →
    value.textChars ++ rest = other.textChars ++ rest' → value = other ∧ rest = rest'

theorem unambiguous_scalar {value : Scalar} (number : ∀ x ∈ value.floats, x.isNaN = false) :
    Unambiguous (.scalar value) := by
  intro other rest rest' ends ends' same
  obtain ⟨sameQuoted, sameBracketed⟩ := kind_iff_of_append same
  cases other with
  | array elements => exact absurd (sameBracketed.mpr rfl) value.kind_ne_array
  | scalar other =>
      -- A string ends at its own quote, a word where the delimiter stands.
      by_cases quoted : value.kind = .string
      · have quoted' : other.kind = .string := sameQuoted.mp quoted
        cases value <;> cases quoted
        cases other <;> cases quoted'
        obtain ⟨sameText, sameRest⟩ := quotedChars_append_inj same
        exact ⟨by rw [String.toList_inj.mp sameText], sameRest⟩
      · have unquoted' : other.kind ≠ .string := mt sameQuoted.mpr quoted
        obtain ⟨sameWord, sameRest⟩ :=
          append_inj_of_class (Scalar.isWordChar_of_mem_textChars quoted)
            (Scalar.isWordChar_of_mem_textChars unquoted') ends ends' same
        exact ⟨by rw [Scalar.word_inj quoted unquoted' number sameWord], sameRest⟩

/-! ### Lists -/

/-- An element after the first, with the separator before it. -/
def entryChars (element : Value) : List Char :=
  ',' :: ' ' :: element.textChars

theorem listChars_cons (first : Value) (rest : List Value) :
    listChars (first :: rest) = first.textChars ++ rest.flatMap entryChars := by
  induction rest generalizing first with
  | nil => simp [listChars]
  | cons second rest ih => simp [listChars, ih, entryChars]

theorem delimited_entries (elements : List Value) (rest : List Char) :
    Delimited (elements.flatMap entryChars ++ ']' :: rest) := by
  cases elements <;> simp [Delimited, entryChars] <;> decide

theorem entries_inj {elements : List Value}
    (unambiguous : ∀ element ∈ elements, Unambiguous element) {others : List Value}
    {rest rest' : List Char}
    (same : elements.flatMap entryChars ++ ']' :: rest =
      others.flatMap entryChars ++ ']' :: rest') :
    elements = others ∧ rest = rest' := by
  induction elements generalizing others with
  | nil =>
      cases others with
      | nil => exact ⟨rfl, (List.cons.inj same).2⟩
      | cons other others => cases (List.cons.inj same).1
  | cons element elements ih =>
      cases others with
      | nil => cases (List.cons.inj same).1
      | cons other others =>
          obtain ⟨head, tail⟩ := List.forall_mem_cons.mp unambiguous
          simp only [List.flatMap_cons, entryChars, List.cons_append, List.append_assoc,
            List.cons.injEq, true_and] at same
          obtain ⟨sameHead, remaining⟩ := head other _ _ (delimited_entries elements rest)
            (delimited_entries others rest') same
          obtain ⟨sameTail, sameRest⟩ := ih tail remaining
          exact ⟨by rw [sameHead, sameTail], sameRest⟩

theorem listChars_append_inj {elements : List Value}
    (unambiguous : ∀ element ∈ elements, Unambiguous element) {others : List Value}
    {rest rest' : List Char}
    (same : listChars elements ++ ']' :: rest = listChars others ++ ']' :: rest') :
    elements = others ∧ rest = rest' := by
  have notClosed (value : Value) {text text' : List Char} :
      ']' :: text ≠ value.textChars ++ text' := by
    obtain ⟨front, _, starts, notClosing, -⟩ := value.exists_front
    rw [starts]
    exact fun same => notClosing (List.cons.inj same).1.symm
  cases elements with
  | nil =>
      cases others with
      | nil => exact ⟨rfl, (List.cons.inj same).2⟩
      | cons other others =>
          rw [listChars_cons, List.append_assoc] at same
          exact absurd same (notClosed other)
  | cons element elements =>
      cases others with
      | nil =>
          rw [listChars_cons, List.append_assoc] at same
          exact absurd same.symm (notClosed element)
      | cons other others =>
          rw [listChars_cons, listChars_cons, List.append_assoc, List.append_assoc] at same
          exact entries_inj unambiguous (by simp [entryChars, same])

theorem unambiguous_array {elements : List Value}
    (unambiguous : ∀ element ∈ elements, Unambiguous element) : Unambiguous (.array elements) := by
  intro other rest rest' _ _ same
  cases other with
  | scalar other => exact absurd ((kind_iff_of_append same).2.mp rfl) other.kind_ne_array
  | array others =>
      simp only [textChars, List.cons_append, List.append_assoc, List.nil_append,
        List.cons.injEq, true_and] at same
      obtain ⟨sameElements, sameRest⟩ := listChars_append_inj unambiguous same
      exact ⟨by rw [sameElements], sameRest⟩

theorem unambiguous_of_numbers {value : Value} (numbers : ∀ x ∈ value.floats, x.isNaN = false) :
    Unambiguous value := by
  induction value using Value.induction with
  | scalar value => exact unambiguous_scalar numbers
  | array elements ih =>
      rw [floats, listFloats_eq_flatMap] at numbers
      refine unambiguous_array fun element member => ih element member fun x occurs => ?_
      exact numbers x (List.mem_flatMap.mpr ⟨element, member, occurs⟩)

theorem eq_of_text {first second : Value} (numbers : ∀ x ∈ first.floats, x.isNaN = false)
    (same : first.text = second.text) : first = second := by
  have sameChars : first.textChars = second.textChars := String.ofList_inj.mp same
  exact (unambiguous_of_numbers numbers second [] [] nofun nofun (by rw [sameChars])).1

/-! ### One line -/

theorem mem_listChars {elements : List Value} {c : Char} (member : c ∈ listChars elements) :
    c = ',' ∨ c = ' ' ∨ ∃ element ∈ elements, c ∈ element.textChars := by
  cases elements with
  | nil => cases member
  | cons first rest =>
      rw [listChars_cons] at member
      rcases List.mem_append.mp member with head | tail
      · exact .inr (.inr ⟨first, List.mem_cons_self, head⟩)
      · obtain ⟨element, later, inside⟩ := List.mem_flatMap.mp tail
        simp only [entryChars, List.mem_cons] at inside
        rcases inside with comma | blank | inside
        · exact .inl comma
        · exact .inr (.inl blank)
        · exact .inr (.inr ⟨element, List.mem_cons_of_mem first later, inside⟩)

theorem isControl_eq_false_of_mem_textChars {value : Value} :
    ∀ c ∈ value.textChars, isControl c = false := by
  induction value using Value.induction with
  | scalar value => exact Scalar.isControl_eq_false_of_mem_textChars
  | array elements ih =>
      intro c member
      simp only [textChars, List.cons_append, List.mem_cons, List.mem_append, List.not_mem_nil,
        or_false] at member
      rcases member with rfl | inside | rfl
      · decide
      · rcases mem_listChars inside with rfl | rfl | ⟨element, part, occurs⟩
        · decide
        · decide
        · exact ih element part c occurs
      · decide

/-- A value without NaNs shares its text with no other value, an array without NaNs with no other
array, and every text is one line. -/
theorem text_unambiguous :
    (∀ first second : Value, (∀ x ∈ first.floats, x.isNaN = false) →
      first.text = second.text → first = second) ∧
    (∀ first second : SharedArray Value,
      (∀ element ∈ first.toList, ∀ x ∈ element.floats, x.isNaN = false) →
        first.text = second.text → first.toList = second.toList) ∧
    ∀ value : Value, ∀ c ∈ value.text.toList, isControl c = false ∧ c ≠ '\n' ∧ c ≠ '\r' := by
  refine ⟨fun _ _ => eq_of_text, ?_, ?_⟩
  · intro first second numbers same
    rw [SharedArray.text_eq, SharedArray.text_eq] at same
    refine Value.array.inj (eq_of_text ?_ same)
    rw [floats, listFloats_eq_flatMap]
    intro x occurs
    obtain ⟨element, member, inside⟩ := List.mem_flatMap.mp occurs
    exact numbers element member x inside
  · intro value c member
    have plain : isControl c = false :=
      isControl_eq_false_of_mem_textChars c (String.toList_ofList ▸ member)
    refine ⟨plain, ?_, ?_⟩
    · rintro rfl
      exact absurd plain (by decide)
    · rintro rfl
      exact absurd plain (by decide)

/-- A zero next to a string that reads like the end of an array and the start of another. -/
def bracketedZero (bits : UInt64) : Value :=
  .array [.scalar (.float ⟨bits⟩), .scalar (.str "], [")]

/-- Zeros of different signs compare equal, and their texts tell them apart. -/
theorem zeros_told_apart :
    (bracketedZero 0).equals (bracketedZero 0x8000000000000000) = true ∧
      (bracketedZero 0).text ≠ (bracketedZero 0x8000000000000000).text ∧
      (let rest := (SharedArray.ofList 0 [Value.nil, bracketedZero 0]).tail 1
      let copy := SharedArray.ofList 1 [bracketedZero 0]
      rest.text = copy.text ∧ rest.toList = copy.toList) := by
  have numbers : ∀ x ∈ (bracketedZero 0).floats, x.isNaN = false := by decide
  have sameText : ((SharedArray.ofList 0 [Value.nil, bracketedZero 0]).tail 1).text =
      (SharedArray.ofList 1 [bracketedZero 0]).text := by
    rw [SharedArray.text_eq, SharedArray.text_eq]
    rfl
  refine ⟨by decide, ?_, sameText, ?_⟩
  · intro same
    exact absurd (text_unambiguous.1 _ _ numbers same) (by decide)
  · exact text_unambiguous.2.1 _ _ (List.forall_mem_singleton.mpr numbers) sameText

end Value

end LinearIR
