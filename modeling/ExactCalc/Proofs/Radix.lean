import ExactCalc.Proofs.Text
import ExactCalc.Radix

/-!
# Markers in a Text

When a text begins with the marker of a base, and which digits a base has.

No two markers begin alike, so a text begins with at most one of them, and
taking a marker off the front of a text undoes putting it there.

## Theorems

* `splitLongMarker?_eq_some`: A text begins with a marker and goes on.
* `splitLongMarker?_eq_none`: The second character rules every marker out.
* `isDigit_of_accepts`: Only base sixteen has letters for digits.
* `accepts_of_isDigit`, `refuses_isDigit`: Which bases have all decimal digits.
* `isSeparator_of_accepts`, `isNameChar_of_accepts`: No digit is a separator, and
  every digit stands in names.
* `not_markerLetter_of_isDigit`: The letter of a marker is no digit.
-/

namespace ExactCalc

namespace Radix

@[simp] theorem splitLongMarker?_eq_some {cs rest : List Char} {r : Radix} :
    splitLongMarker? cs = some (r, rest) ↔ cs = r.marker ++ rest := by
  constructor
  · intro h
    rcases List.exists_of_findSome?_eq_some h with ⟨s, -, hs⟩
    rcases Option.map_eq_some_iff.mp hs with ⟨rest', hstrip, heq⟩
    rw [Prod.mk.injEq] at heq
    rw [stripStart?_eq_some.mp hstrip, heq.1, heq.2]
  · intro h
    rw [h]
    cases r <;> simp only [splitLongMarker?, all, marker, List.findSome?, List.cons_append,
      List.nil_append, stripStart?, if_true, Option.map_some, Option.map_none, Char.reduceEq,
      if_false]

theorem marker_eq (r : Radix) : ∃ d ∈ ['b', 'o', 'd', 'x'], r.marker = ['0', d, ':'] := by
  cases r
  · exact ⟨'b', by decide, rfl⟩
  · exact ⟨'o', by decide, rfl⟩
  · exact ⟨'d', by decide, rfl⟩
  · exact ⟨'x', by decide, rfl⟩

@[simp] theorem getLast?_marker (r : Radix) : r.marker.getLast? = some ':' := by
  cases r <;> rfl

/-- A text whose second character belongs to no marker begins with none. -/
theorem splitLongMarker?_eq_none {c : Char} {cs : List Char}
    (h : ∀ d ∈ cs.head?, d ∉ ['b', 'o', 'd', 'x']) : splitLongMarker? (c :: cs) = none := by
  rcases hs : splitLongMarker? (c :: cs) with _ | ⟨r, rest⟩
  · rfl
  have htext := splitLongMarker?_eq_some.mp hs
  rcases r.marker_eq with ⟨d, hd, hr⟩
  rw [hr, List.cons_append, List.cons.injEq] at htext
  exact absurd hd (h d (by rw [htext.2]; rfl))

/-- Only base sixteen has letters for digits. -/
theorem isDigit_of_accepts {r : Radix} {c : Char} (hr : r ≠ .hex) (h : r.accepts c = true) :
    c.isDigit = true := by
  have hall : ∀ c ∈ r.alphabet, c.isDigit = true := by
    cases r with
    | hex => exact absurd rfl hr
    | bin | oct | dec => exact Text.forall_of_all (by decide)
  exact hall c (List.contains_iff_mem.mp h)

/-- The bases ten and sixteen have all decimal digits. -/
theorem accepts_of_isDigit {c : Char} (h : c.isDigit = true) :
    Radix.dec.accepts c = true ∧ Radix.hex.accepts c = true := by
  have hall := Text.of_ascii
    (fun c => !c.isDigit || (Radix.dec.accepts c && Radix.hex.accepts c)) (by decide +kernel)
    (Text.toNat_lt_of_isNameChar (Text.isNameChar_of_isDigit h))
  rwa [h, Bool.not_true, Bool.false_or, Bool.and_eq_true] at hall

/-- Only a base that lacks decimal digits refuses any. -/
theorem refuses_isDigit {r : Radix} {c : Char} (h : c.isDigit = true) (hr : r.accepts c = false) :
    r ≠ .dec ∧ r ≠ .hex := by
  refine ⟨?_, ?_⟩ <;> rintro rfl
  · exact absurd (accepts_of_isDigit h).1 (by rw [hr]; exact Bool.false_ne_true)
  · exact absurd (accepts_of_isDigit h).2 (by rw [hr]; exact Bool.false_ne_true)

theorem isSeparator_of_accepts {r : Radix} {c : Char} (h : r.accepts c = true) :
    Numeral.isSeparator c = false := by
  have hall : ∀ c ∈ r.alphabet, Numeral.isSeparator c = false := by
    cases r <;> exact Text.forall_of_all (by decide)
  exact hall c (List.contains_iff_mem.mp h)

theorem isNameChar_of_accepts {r : Radix} {c : Char} (h : r.accepts c = true) :
    isNameChar c = true := by
  have hall : ∀ c ∈ r.alphabet, isNameChar c = true := by
    cases r <;> exact Text.forall_of_all (by decide)
  exact hall c (List.contains_iff_mem.mp h)

theorem not_markerLetter_of_isDigit {c : Char} (h : c.isDigit = true) :
    c ∉ ['b', 'o', 'd', 'x'] := by
  have hall : ∀ c ∈ ['b', 'o', 'd', 'x'], c.isDigit = false := Text.forall_of_all (by decide)
  intro hc
  rw [hall c hc] at h
  exact absurd h Bool.false_ne_true

end Radix

end ExactCalc
