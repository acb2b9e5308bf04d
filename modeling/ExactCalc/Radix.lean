/-!
# Radixes

The four number bases a calculator works in, with the digits each of them
accepts and the marker that announces each of them in a text.

Digits beyond nine are upper-case letters only, so a lower-case letter can
always start a name. A marker ends in a colon; base sixteen has a second,
shorter marker without one, because the letter `x` is a digit in no base and so
nothing else can be meant.

## Main definitions

* `Radix`: The four bases.
* `Radix.size`, `Radix.alphabet`, `Radix.accepts`: The digits of a base.
* `Radix.marker`, `Radix.ofMarker?`, `Radix.splitMarker?`: Markers, written,
  recognised whole, and taken off the front of a text.

## Theorems

* `ofMarker?_marker`: Every marker is recognised as its own.
-/

namespace ExactCalc

/-- A number base. -/
inductive Radix where
  | bin
  | oct
  | dec
  | hex
  deriving DecidableEq, Repr, Inhabited

namespace Radix

/-- All bases, smallest first. -/
def all : List Radix := [.bin, .oct, .dec, .hex]

/-- How many digits a base has. -/
def size : Radix → Nat
  | .bin => 2
  | .oct => 8
  | .dec => 10
  | .hex => 16

/-- The digits of a base, in order of value. -/
def alphabet : Radix → List Char
  | .bin => ['0', '1']
  | .oct => ['0', '1', '2', '3', '4', '5', '6', '7']
  | .dec => ['0', '1', '2', '3', '4', '5', '6', '7', '8', '9']
  | .hex => ['0', '1', '2', '3', '4', '5', '6', '7', '8', '9', 'A', 'B', 'C', 'D', 'E', 'F']

/-- Whether a character is a digit of the base. -/
def accepts (r : Radix) (c : Char) : Bool :=
  r.alphabet.contains c

/-- The short name a base is shown under. -/
def name : Radix → String
  | .bin => "bin"
  | .oct => "oct"
  | .dec => "dec"
  | .hex => "hex"

/-- The marker written in front of a number of the base. -/
def marker : Radix → List Char
  | .bin => ['0', 'b', ':']
  | .oct => ['0', 'o', ':']
  | .dec => ['0', 'd', ':']
  | .hex => ['0', 'x', ':']

/-- The short marker of base sixteen. -/
def shortMarker : List Char := ['0', 'x']

/-- The base a whole text is the marker of, if it is one. -/
def ofMarker? (m : List Char) : Option Radix :=
  if m = shortMarker then some .hex else all.find? fun r => r.marker == m

/-- The rest of a text after a given beginning, if it begins so. -/
def stripStart? : List Char → List Char → Option (List Char)
  | [], cs => some cs
  | _ :: _, [] => none
  | m :: ms, c :: cs => if m = c then stripStart? ms cs else none

/-- The base whose long marker begins the text, and the text after it. -/
def splitLongMarker? (cs : List Char) : Option (Radix × List Char) :=
  all.findSome? fun r => (stripStart? r.marker cs).map (r, ·)

/-- The base whose marker begins the text, long form before short form, and the
    text after it. -/
def splitMarker? (cs : List Char) : Option (Radix × List Char) :=
  match splitLongMarker? cs with
  | some found => some found
  | none => (stripStart? shortMarker cs).map (.hex, ·)

/-- Every marker is recognised as its own. -/
@[simp] theorem ofMarker?_marker (r : Radix) : ofMarker? r.marker = some r := by
  cases r <;> decide

/-- Only a text with the given beginning has a rest after it. -/
@[simp] theorem stripStart?_eq_some {m cs rest : List Char} :
    stripStart? m cs = some rest ↔ cs = m ++ rest := by
  induction m generalizing cs with
  | nil => simp [stripStart?, eq_comm]
  | cons a ms ih =>
    cases cs with
    | nil => simp [stripStart?]
    | cons c cs =>
      by_cases h : a = c
      · subst h; simp [stripStart?, ih]
      · simp only [stripStart?, if_neg h, List.cons_append, List.cons.injEq, reduceCtorEq,
          false_iff, not_and]
        exact fun h' => absurd h'.symm h

/-- A long marker takes characters off the front of the text. -/
theorem length_of_splitLongMarker? {cs rest : List Char} {r : Radix}
    (h : splitLongMarker? cs = some (r, rest)) : rest.length < cs.length := by
  obtain ⟨r', -, hr⟩ := List.exists_of_findSome?_eq_some h
  obtain ⟨rest', hstrip, heq⟩ := Option.map_eq_some_iff.mp hr
  cases heq
  rw [stripStart?_eq_some.mp hstrip, List.length_append]
  have : 0 < r.marker.length := by cases r <;> decide
  omega

end Radix

end ExactCalc
