/-!
# Blank Characters

Which characters count as blank space, and how a text is trimmed of them.

The set is the Unicode property `White_Space`: twenty-five code points in ten
ranges. It is wider than the blanks a keyboard types, because a pasted text may
hold a no-break space, a thin space or a line separator, and each of those
separates groups of digits just as a plain space does.

## Main definitions

* `isBlank`: Membership in the set.
* `trimStart`, `trimEnd`, `trim`: A text without its outer blanks.

## Theorems

* `trimStart_cons_of_not_blank`: A text that starts with no blank is kept.
-/

namespace ExactCalc

namespace Text

/-- The ranges of code points with the property `White_Space`, in order. -/
def blankRanges : List (Nat × Nat) :=
  [(0x09, 0x0D), (0x20, 0x20), (0x85, 0x85), (0xA0, 0xA0), (0x1680, 0x1680),
   (0x2000, 0x200A), (0x2028, 0x2029), (0x202F, 0x202F), (0x205F, 0x205F),
   (0x3000, 0x3000)]

/-- Whether a character is blank space. -/
def isBlank (c : Char) : Bool :=
  blankRanges.any fun r => r.1 ≤ c.toNat && c.toNat ≤ r.2

/-- The text from its first character that is not blank. -/
def trimStart (cs : List Char) : List Char :=
  cs.dropWhile isBlank

/-- The text up to its last character that is not blank. -/
def trimEnd (cs : List Char) : List Char :=
  (cs.reverse.dropWhile isBlank).reverse

/-- The text without the blanks at either end. -/
def trim (cs : List Char) : List Char :=
  trimEnd (trimStart cs)

/-- The trimmed form of a string. -/
def trimmed (s : String) : String :=
  String.ofList (trim s.toList)

/-- A text that starts with no blank loses nothing at its start. -/
theorem trimStart_cons_of_not_blank (c : Char) (cs : List Char) (h : isBlank c = false) :
    trimStart (c :: cs) = c :: cs := by
  simp [trimStart, h]

end Text

end ExactCalc
