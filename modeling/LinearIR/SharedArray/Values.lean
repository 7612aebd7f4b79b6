import LinearIR.SharedArray.Basic
import LinearIR.Value.Text

/-!
# Arrays of values

What a program observes of an array of values beyond its elements: comparison with another array
and the text.
-/

set_option autoImplicit false

namespace LinearIR.SharedArray

def equals (first second : SharedArray Value) : Bool :=
  Value.allEqual first.toList second.toList

def textChars (array : SharedArray Value) : List Char :=
  '[' :: [',', ' '].intercalate (array.toList.map Value.textChars) ++ [']']

def text (array : SharedArray Value) : String :=
  String.ofList array.textChars

theorem intercalate_textChars (elements : List Value) :
    [',', ' '].intercalate (elements.map Value.textChars) = Value.listChars elements := by
  induction elements with
  | nil => rfl
  | cons first rest ih =>
      cases rest with
      | nil => simp [Value.listChars]
      | cons second rest =>
          rw [Value.listChars, ← ih]
          simp [List.intercalate]

theorem text_eq (array : SharedArray Value) : array.text = (Value.array array.toList).text := by
  unfold text textChars Value.text Value.textChars
  rw [intercalate_textChars]

end LinearIR.SharedArray
