import LinearIR.Binary64.Shortest
import LinearIR.Value.Basic

/-!
# Text of values

The text of a value is one line: strings are quoted with their control characters escaped, and
arrays are bracketed lists. A second form also names the kind of every part.
-/

set_option autoImplicit false

namespace LinearIR

def isControl (c : Char) : Bool :=
  decide (c.val < 0x20) || (decide (0x7F ≤ c.val) && decide (c.val < 0xA0))

/-- A character inside a quoted string. Newline and tab have short escapes; the other control
characters are written by their code point in at least four hexadecimal digits. -/
def quotedChar (c : Char) : List Char :=
  if c = '"' then ['\\', '"']
  else if c = '\\' then ['\\', '\\']
  else if c = '\n' then ['\\', 'n']
  else if c = '\t' then ['\\', 't']
  else if isControl c then
    "\\u\x7b".toList ++ (Nat.toDigits 16 c.toNat).leftpad 4 '0' ++ "\x7d".toList
  else [c]

def quotedChars (characters : List Char) : List Char :=
  '"' :: characters.flatMap quotedChar ++ ['"']

namespace Scalar

def textChars : Scalar → List Char
  | .nil => "nil".toList
  | .bool true => "true".toList
  | .bool false => "false".toList
  | .fixnum value => (toString value.toInt).toList
  | .float value => value.textChars
  | .str value => quotedChars value.toList

def namedTextChars : Scalar → List Char
  | .nil => "Nil".toList
  | .bool value => "Bool(".toList ++ textChars (.bool value) ++ [')']
  | .fixnum value => "Fixnum(".toList ++ textChars (.fixnum value) ++ [')']
  | .float value => "Float(".toList ++ textChars (.float value) ++ [')']
  | .str value => "Str(".toList ++ textChars (.str value) ++ [')']

end Scalar

namespace Value

mutual

def textChars : Value → List Char
  | .scalar value => value.textChars
  | .array elements => '[' :: listChars elements ++ [']']

def listChars : List Value → List Char
  | [] => []
  | [last] => textChars last
  | first :: second :: rest => textChars first ++ ',' :: ' ' :: listChars (second :: rest)

end

mutual

/-- The text in which every part is named by its kind. -/
def namedTextChars : Value → List Char
  | .scalar value => value.namedTextChars
  | .array elements => "Array([".toList ++ namedListChars elements ++ "])".toList

def namedListChars : List Value → List Char
  | [] => []
  | [last] => namedTextChars last
  | first :: second :: rest =>
    namedTextChars first ++ ',' :: ' ' :: namedListChars (second :: rest)

end

def text (value : Value) : String :=
  String.ofList value.textChars

def namedText (value : Value) : String :=
  String.ofList value.namedTextChars

end Value

end LinearIR
