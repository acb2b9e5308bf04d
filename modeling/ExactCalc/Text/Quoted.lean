import ExactCalc.Text.Hidden

/-!
# Quoted Text

A text in double quotes, with every character that would not show as itself
written as an escape.

The commonest controls have escapes of two characters; every other character
that does not show is written by the number of its code point.

## Main definitions

* `escape`, `quote`: The quoted form.
-/

namespace ExactCalc

namespace Text

/-- A code point in lower-case hexadecimal digits. -/
def codePoint (c : Char) : List Char := Nat.toDigits 16 c.toNat

/-- A character as it stands between double quotes. -/
def escape (c : Char) : List Char :=
  if c = '"' then ['\\', '"']
  else if c = '\\' then ['\\', '\\']
  else if c = '\n' then ['\\', 'n']
  else if c = '\r' then ['\\', 'r']
  else if c = '\t' then ['\\', 't']
  else if c = '\x00' then ['\\', '0']
  else if isHidden c then ['\\', 'u', '\x7b'] ++ codePoint c ++ ['\x7d']
  else [c]

/-- A text between double quotes. -/
def quote (s : String) : String :=
  String.ofList ('"' :: s.toList.flatMap escape ++ ['"'])

end Text

end ExactCalc
