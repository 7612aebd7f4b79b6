import LinearIR.Value.Basic

/-!
# Types that stand for values

Code runs over any type whose members stand for values. Taking a part of an array must agree
with the value that is stood for; everything else is read off that value.
-/

set_option autoImplicit false

namespace LinearIR

class ValueLike (V : Type) where
  toValue : V → Value
  /-- The part of an array, as `Value.extract?` takes it. -/
  extract? : V → Nat → Bool → Option V
  toValue_extract? : ∀ (value : V) (index : Nat) (takeRest : Bool),
    (extract? value index takeRest).map toValue = (toValue value).extract? index takeRest

export ValueLike (toValue)

instance : ValueLike Value where
  toValue value := value
  extract? := Value.extract?
  toValue_extract? _ _ _ := by simp

end LinearIR
