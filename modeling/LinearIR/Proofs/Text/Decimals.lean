import Mathlib.Data.List.DropRight
import LinearIR.Proofs.Comparison.Numbers

/-!
# The text of a number tells the number

The decimal that is written for a number rounds to it, and a decimal rounds to one number only. The
decimal can be read off the text, since digits are written one after the other and only zeros at the
end are left out. So different numbers have different texts, and only NaNs share one.
-/

set_option autoImplicit false

namespace LinearIR

/-! ## Digits -/

/-- The value of a digit in a base of at most sixteen. -/
def digitValue (digit : Char) : Nat :=
  if digit.isDigit then digit.toNat - '0'.toNat else digit.toNat - 'a'.toNat + 10

def readDigits (base : Nat) (digits : List Char) : Nat :=
  digits.foldl (fun value digit => base * value + digitValue digit) 0

theorem digitValue_digitChar : ∀ digit < 16, digitValue (Nat.digitChar digit) = digit := by
  decide

section

variable {base : Nat}

theorem readDigits_concat (base : Nat) (digits : List Char) (digit : Char) :
    readDigits base (digits ++ [digit]) = base * readDigits base digits + digitValue digit := by
  simp [readDigits]

theorem readDigits_toDigits (large : 1 < base) (small : base ≤ 16) (number : Nat) :
    readDigits base (Nat.toDigits base number) = number := by
  induction number using Nat.strongRecOn with
  | ind number ih =>
      by_cases single : number < base
      · have value := digitValue_digitChar number (Nat.lt_of_lt_of_le single small)
        simp [readDigits, Nat.toDigits_of_lt_base single, value]
      · have atLeast := Nat.le_of_not_lt single
        have positive : 0 < number := Nat.lt_of_lt_of_le (Nat.lt_of_succ_lt large) atLeast
        have last : number % base < base := Nat.mod_lt number (Nat.lt_of_succ_lt large)
        have value := digitValue_digitChar _ (Nat.lt_of_lt_of_le last small)
        rw [Nat.toDigits_of_base_le large atLeast, readDigits_concat,
          ih (number / base) (Nat.div_lt_self positive large), value, Nat.div_add_mod]

theorem toDigits_injective (large : 1 < base) (small : base ≤ 16) :
    Function.Injective (Nat.toDigits base) := by
  intro number number' same
  rw [← readDigits_toDigits large small number, same, readDigits_toDigits large small]

theorem readDigits_leftpad (base width : Nat) (digits : List Char) :
    readDigits base (digits.leftpad width '0') = readDigits base digits := by
  have zeros (count : Nat) : readDigits base (List.replicate count '0') = 0 := by
    induction count with
    | zero => rfl
    | succ count ih => rw [List.replicate_succ', readDigits_concat, ih]; rfl
  have padding := zeros (width - digits.length)
  rw [readDigits] at padding
  rw [List.leftpad, readDigits, readDigits, List.foldl_append, padding]

theorem exists_of_mem_toDigits (large : 1 < base) {number : Nat} {digit : Char}
    (member : digit ∈ Nat.toDigits base number) :
    ∃ value < base, digit = Nat.digitChar value := by
  induction number using Nat.strongRecOn with
  | ind number ih =>
      by_cases single : number < base
      · rw [Nat.toDigits_of_lt_base single] at member
        exact ⟨number, single, List.mem_singleton.mp member⟩
      · have atLeast := Nat.le_of_not_lt single
        have positive : 0 < number := Nat.lt_of_lt_of_le (Nat.lt_of_succ_lt large) atLeast
        rw [Nat.toDigits_of_base_le large atLeast] at member
        rcases List.mem_append.mp member with front | last
        · exact ih (number / base) (Nat.div_lt_self positive large) front
        · exact ⟨number % base, Nat.mod_lt number (Nat.lt_of_succ_lt large),
            List.mem_singleton.mp last⟩

end

theorem isDigit_of_mem_toDigits {number : Nat} :
    ∀ c ∈ Nat.toDigits 10 number, c.isDigit = true := fun _ member =>
  Nat.isDigit_of_mem_toDigits (by decide) (by decide) member

/-- A text can be taken apart where the characters of a class end. -/
theorem append_inj_of_class {inside : Char → Bool} {front front' back back' : List Char}
    (within : ∀ c ∈ front, inside c) (within' : ∀ c ∈ front', inside c)
    (ends : ∀ c ∈ back.head?, inside c = false) (ends' : ∀ c ∈ back'.head?, inside c = false)
    (same : front ++ back = front' ++ back') : front = front' ∧ back = back' := by
  have none_taken {rest : List Char} (ends : ∀ c ∈ rest.head?, inside c = false) :
      rest.takeWhile inside = [] := by
    cases rest with
    | nil => rfl
    | cons c rest => simp [ends c rfl]
  have taken := congrArg (List.takeWhile inside) same
  rw [List.takeWhile_append_of_pos within, List.takeWhile_append_of_pos within', none_taken ends,
    none_taken ends', List.append_nil, List.append_nil] at taken
  exact ⟨taken, List.append_cancel_left (taken ▸ same)⟩

namespace Binary64

/-! ## A decimal rounds to one number -/

theorem strictMono_decimalUnits : StrictMono decimalUnits := by
  have positive (exponent : Nat) : 0 < Nat.pow 5 exponent := Nat.pow_pos (by decide)
  refine strictMono_nat_of_lt_succ fun magnitude => ?_
  have grows := strictMono_binaryUnits (Nat.lt_succ_self magnitude)
  exact Nat.mul_lt_mul_of_pos_right grows (positive decimalPlaces)

variable {magnitude magnitude' decimal : Nat}

/-- A decimal that rounds to a number lies between the midpoints to its neighbours, and is one of
them only if the fraction is even. -/
theorem roundsTo_iff :
    roundsTo magnitude decimal = true ↔
      (decimalUnits (magnitude - 1) + decimalUnits magnitude ≤ 2 * decimal ∧
        2 * decimal ≤ decimalUnits magnitude + decimalUnits (magnitude + 1)) ∧
      (magnitude % 2 = 0 ∨
        decimalUnits (magnitude - 1) + decimalUnits magnitude < 2 * decimal ∧
          2 * decimal < decimalUnits magnitude + decimalUnits (magnitude + 1)) := by
  unfold roundsTo
  dsimp only
  split
  · next even => simp [even]
  · next odd =>
    simp only [odd, Bool.and_eq_true, decide_eq_true_eq, false_or]
    omega

/-- Of two neighbours one has an odd fraction, so they do not share the midpoint. -/
theorem not_lt_of_roundsTo (rounds : roundsTo magnitude decimal = true)
    (rounds' : roundsTo magnitude' decimal = true) : ¬ magnitude < magnitude' := by
  intro smaller
  obtain ⟨⟨-, upper⟩, inner⟩ := roundsTo_iff.mp rounds
  obtain ⟨⟨lower, -⟩, inner'⟩ := roundsTo_iff.mp rounds'
  have below : decimalUnits magnitude ≤ decimalUnits (magnitude' - 1) :=
    strictMono_decimalUnits.monotone (by omega)
  rcases Nat.lt_or_ge (magnitude + 1) magnitude' with apart | adjacent
  · have above : decimalUnits (magnitude + 1) < decimalUnits magnitude' :=
      strictMono_decimalUnits apart
    omega
  · have next : magnitude' = magnitude + 1 := by omega
    subst next
    omega

theorem eq_of_roundsTo (rounds : roundsTo magnitude decimal = true)
    (rounds' : roundsTo magnitude' decimal = true) : magnitude = magnitude' :=
  Nat.le_antisymm (Nat.le_of_not_lt (not_lt_of_roundsTo rounds' rounds))
    (Nat.le_of_not_lt (not_lt_of_roundsTo rounds rounds'))

theorem roundsTo_decimalUnits (magnitude : Nat) :
    roundsTo magnitude (decimalUnits magnitude) = true := by
  have above : decimalUnits magnitude < decimalUnits (magnitude + 1) :=
    strictMono_decimalUnits (Nat.lt_succ_self magnitude)
  have below : decimalUnits (magnitude - 1) ≤ decimalUnits magnitude :=
    strictMono_decimalUnits.monotone (Nat.sub_le magnitude 1)
  refine roundsTo_iff.mpr ⟨by omega, ?_⟩
  rcases Nat.eq_zero_or_pos magnitude with zero | positive
  · exact .inl (by rw [zero])
  · have strictlyBelow : decimalUnits (magnitude - 1) < decimalUnits magnitude :=
      strictMono_decimalUnits (by omega)
    exact .inr (by omega)

theorem roundsTo_of_nearestOnGrid {spacing : Nat}
    (found : nearestOnGrid? magnitude spacing = some decimal) :
    roundsTo magnitude decimal = true := by
  unfold nearestOnGrid? at found
  dsimp only at found
  split at found
  · next below above =>
    rw [← Option.some.inj found]
    split
    · exact below
    · exact above
  · next below _ => exact Option.some.inj found ▸ below
  · next above => exact Option.some.inj found ▸ above
  · cases found

theorem roundsTo_shortestFrom (magnitude level : Nat) :
    roundsTo magnitude (shortestFrom magnitude level) = true := by
  induction level with
  | zero => exact roundsTo_decimalUnits magnitude
  | succ level ih =>
      rw [shortestFrom]
      split
      · next decimal found => exact roundsTo_of_nearestOnGrid found
      · exact ih

theorem shortest_injective : Function.Injective shortest := by
  intro magnitude magnitude' same
  have rounds := roundsTo_shortestFrom magnitude (coarsestLevel (decimalUnits (magnitude + 1)))
  have rounds' := roundsTo_shortestFrom magnitude' (coarsestLevel (decimalUnits (magnitude' + 1)))
  rw [shortest, shortest] at same
  exact eq_of_roundsTo rounds (same ▸ rounds')

/-! ## The decimal can be read off its digits -/

/-- All digits after the point, with the zeros at the end. -/
def fractionPlaces (fraction : Nat) : List Char :=
  (Nat.toDigits 10 fraction).leftpad decimalPlaces '0'

theorem fractionDigits_eq (fraction : Nat) :
    fractionDigits fraction =
      match (fractionPlaces fraction).rdropWhile (· == '0') with
      | [] => ['0']
      | digits => digits := rfl

theorem length_toDigits_le {number places : Nat} (positive : 0 < places)
    (small : number < Nat.pow 10 places) : (Nat.toDigits 10 number).length ≤ places :=
  (Nat.length_toDigits_le_iff (by decide) positive).mpr small

theorem length_fractionPlaces {fraction : Nat} (small : fraction < Nat.pow 10 decimalPlaces) :
    (fractionPlaces fraction).length = decimalPlaces := by
  rw [fractionPlaces, List.length_leftpad]
  exact Nat.max_eq_left (length_toDigits_le (by decide) small)

theorem append_zeros_of_rdropWhile (digits : List Char) :
    digits.rdropWhile (· == '0') ++
        List.replicate (digits.length - (digits.rdropWhile (· == '0')).length) '0' = digits := by
  have parts : digits.rdropWhile (· == '0') ++ digits.rtakeWhile (· == '0') = digits :=
    List.rdropWhile_append_rtakeWhile
  have zeros : digits.rtakeWhile (· == '0') =
      List.replicate (digits.rtakeWhile (· == '0')).length '0' := by
    refine List.eq_replicate_of_mem fun digit member => ?_
    simpa using List.mem_rtakeWhile_imp member
  have count := congrArg List.length parts
  rw [List.length_append] at count
  rw [← Nat.eq_sub_of_add_eq' count, ← zeros, parts]

/-- What is left without the zeros at the end does not end in a zero. -/
theorem rdropWhile_ne_zero (digits : List Char) : digits.rdropWhile (· == '0') ≠ ['0'] := by
  intro same
  have last := List.rdropWhile_last_not (fun digit => digit == '0') digits
    (by rw [same]; exact List.cons_ne_nil _ _)
  simp [same] at last

theorem rdropWhile_fractionPlaces (fraction : Nat) :
    (fractionPlaces fraction).rdropWhile (· == '0') =
      if fractionDigits fraction = ['0'] then [] else fractionDigits fraction := by
  have ends := rdropWhile_ne_zero (fractionPlaces fraction)
  rw [fractionDigits_eq]
  split
  · next empty => rw [empty, if_pos rfl]
  · rw [if_neg ends]

theorem fractionDigits_inj {fraction fraction' : Nat}
    (small : fraction < Nat.pow 10 decimalPlaces) (small' : fraction' < Nat.pow 10 decimalPlaces)
    (same : fractionDigits fraction = fractionDigits fraction') : fraction = fraction' := by
  have places : fractionPlaces fraction = fractionPlaces fraction' := by
    rw [← append_zeros_of_rdropWhile (fractionPlaces fraction),
      ← append_zeros_of_rdropWhile (fractionPlaces fraction'), length_fractionPlaces small,
      length_fractionPlaces small', rdropWhile_fractionPlaces, rdropWhile_fractionPlaces, same]
  have read (number : Nat) : readDigits 10 (fractionPlaces number) = number := by
    rw [fractionPlaces, readDigits_leftpad, readDigits_toDigits (by decide) (by decide)]
  rw [← read fraction, places, read]

theorem positional_injective : Function.Injective positional := by
  intro decimal decimal' same
  have positive (places : Nat) : 0 < Nat.pow 10 places := Nat.pow_pos (by decide)
  obtain ⟨whole, fraction⟩ := append_inj_of_class isDigit_of_mem_toDigits isDigit_of_mem_toDigits
    (by simp) (by simp) same
  have quotients := toDigits_injective (by decide) (by decide) whole
  have remainders := fractionDigits_inj (Nat.mod_lt decimal (positive decimalPlaces))
    (Nat.mod_lt decimal' (positive decimalPlaces)) (List.cons.inj fraction).2
  calc
    decimal = Nat.pow 10 decimalPlaces * (decimal / Nat.pow 10 decimalPlaces) +
        decimal % Nat.pow 10 decimalPlaces := (Nat.div_add_mod decimal _).symm
    _ = Nat.pow 10 decimalPlaces * (decimal' / Nat.pow 10 decimalPlaces) +
        decimal' % Nat.pow 10 decimalPlaces := by rw [quotients, remainders]
    _ = decimal' := Nat.div_add_mod decimal' _

/-! ## The text of a number -/

def unsignedChars (x : Binary64) : List Char :=
  if x.isInfinite then "Infinity".toList else positional (shortest x.magnitude)

theorem textChars_of_isNaN {x : Binary64} (notNumber : x.isNaN = true) :
    x.textChars = "NaN".toList := by
  simp only [textChars, notNumber, if_true]

theorem textChars_of_number {x : Binary64} (number : x.isNaN = false) :
    x.textChars = if x.isNegative then '-' :: x.unsignedChars else x.unsignedChars := by
  simp only [textChars, number, unsignedChars, Bool.false_eq_true, if_false]

theorem isDigit_of_mem_fractionDigits {fraction : Nat} :
    ∀ c ∈ fractionDigits fraction, c.isDigit = true := by
  have places : ∀ c ∈ fractionPlaces fraction, c.isDigit = true := by
    intro c member
    rcases List.mem_append.mp member with zero | digit
    · rw [(List.mem_replicate.mp zero).2]
      rfl
    · exact isDigit_of_mem_toDigits c digit
  rw [fractionDigits_eq]
  split
  · exact List.all_eq_true.mp (by decide)
  · intro c member
    exact places c ((List.rdropWhile_prefix _ _).subset member)

theorem mem_unsignedChars {x : Binary64} :
    ∀ c ∈ x.unsignedChars, (c.isAlphanum || c == '.') = true := by
  unfold unsignedChars
  split
  · exact List.all_eq_true.mp (by decide)
  · intro c member
    rcases List.mem_append.mp member with whole | fraction
    · simp [Char.isAlphanum, isDigit_of_mem_toDigits c whole]
    · rcases List.mem_cons.mp fraction with point | digit
      · simp [point]
      · simp [Char.isAlphanum, isDigit_of_mem_fractionDigits c digit]

theorem mark_mem_unsignedChars (x : Binary64) :
    (if x.isInfinite then 'I' else '.') ∈ x.unsignedChars := by
  unfold unsignedChars
  split
  · decide
  · exact List.mem_append_right _ List.mem_cons_self

theorem mark_mem_textChars {x : Binary64} (number : x.isNaN = false) :
    (if x.isInfinite then 'I' else '.') ∈ x.textChars := by
  have member := mark_mem_unsignedChars x
  rw [textChars_of_number number]
  split
  · exact List.mem_cons_of_mem '-' member
  · exact member

theorem unsignedChars_inj {x y : Binary64} (same : x.unsignedChars = y.unsignedChars) :
    x.magnitude = y.magnitude := by
  have infinite : '.' ∉ "Infinity".toList := by decide
  have finite (z : Binary64) : '.' ∈ positional (shortest z.magnitude) :=
    List.mem_append_right _ List.mem_cons_self
  unfold unsignedChars at same
  split at same <;> split at same
  · next infinite infinite' =>
    exact (beq_iff_eq.mp infinite).trans (beq_iff_eq.mp infinite').symm
  · exact absurd (same ▸ finite y) infinite
  · exact absurd (same ▸ finite x) infinite
  · exact shortest_injective (positional_injective same)

/-- The text of a number tells its bits. -/
theorem textChars_inj {x y : Binary64} (number : x.isNaN = false)
    (same : x.textChars = y.textChars) : x = y := by
  have number' : y.isNaN = false := by
    cases notNumber : y.isNaN with
    | false => rfl
    | true =>
        have member := mark_mem_textChars number
        rw [same, textChars_of_isNaN notNumber] at member
        split at member <;> exact absurd member (by decide)
  rw [textChars_of_number number, textChars_of_number number'] at same
  have unsigned {z : Binary64} : '-' ∉ z.unsignedChars := fun member =>
    absurd (mem_unsignedChars '-' member) (by decide)
  cases sign : x.isNegative <;> cases sign' : y.isNegative <;>
    simp only [sign, sign', Bool.false_eq_true, if_true, if_false] at same
  · exact eq_of_magnitude (sign.trans sign'.symm) (unsignedChars_inj same)
  · exact absurd (same ▸ List.mem_cons_self) unsigned
  · exact absurd (same ▸ List.mem_cons_self) unsigned
  · exact eq_of_magnitude (sign.trans sign'.symm) (unsignedChars_inj (List.cons.inj same).2)

end Binary64

end LinearIR
