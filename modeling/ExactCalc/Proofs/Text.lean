import ExactCalc.Lexeme

/-!
# Classes of Characters

How the classes of characters exclude one another.

The classes are given by ranges and lists of different origin, and comparing two
of them as ranges is tedious. All that names and numbers are made of lies below
128, where a property that can be computed is settled by trying every
character. A property of the characters of a list is tried along the list.

## Theorems

* `of_ascii`: A property of every character below 128.
* `forall_of_all`: A property of every character of a list.
* `takeWhile_of_stops`: The longest beginning of one class.
* `isNameChar_of_isDigit`, `isNameChar_of_isNameStart`: What stands in names.
* `isBlank_of_isNameChar`: Nothing that stands in a name is blank.
* `trim_eq_self`, `trim_concat`: What trimming leaves.
-/

namespace ExactCalc

namespace Text

/-- A computable property of every character below 128. -/
theorem of_ascii (p : Char → Bool) (h : (List.range 128).all (fun n => p (Char.ofNat n)) = true)
    {c : Char} (hc : c.toNat < 128) : p c = true := by
  have hn := List.all_eq_true.mp h c.toNat (List.mem_range.mpr hc)
  rwa [Char.ofNat_toNat] at hn

/-- A property of every character of a list, tried out along the list and not
    over all characters there are. -/
theorem forall_of_all {cs : List Char} {P : Char → Prop} [DecidablePred P]
    (h : cs.all (fun c => decide (P c)) = true) : ∀ c ∈ cs, P c := by
  intro c hc
  exact of_decide_eq_true (List.all_eq_true.mp h c hc)

/-- Two ways to cut a text behind its longest beginning of one class are one. -/
theorem takeWhile_of_stops {p : Char → Bool} {w rest : List Char} (hw : ∀ c ∈ w, p c = true)
    (hrest : ∀ c ∈ rest.head?, p c = false) : (w ++ rest).takeWhile p = w := by
  rw [List.takeWhile_append_of_pos hw]
  cases rest with
  | nil => rw [List.takeWhile_nil, List.append_nil]
  | cons c cs =>
      have hc : ¬p c = true := by
        rw [hrest c rfl]
        exact Bool.false_ne_true
      rw [List.takeWhile_cons_of_neg hc, List.append_nil]

theorem toNat_lt_of_isNameChar {c : Char} (h : isNameChar c = true) : c.toNat < 128 := by
  unfold isNameChar Char.isAlphanum Char.isAlpha Char.isUpper Char.isLower Char.isDigit at h
  simp only [Bool.or_eq_true, Bool.and_eq_true, decide_eq_true_eq, beq_iff_eq, ge_iff_le,
    UInt32.le_iff_toNat_le] at h
  rcases h with ((⟨-, h⟩ | ⟨-, h⟩) | ⟨-, h⟩) | h
  · exact Nat.lt_of_le_of_lt h (by decide)
  · exact Nat.lt_of_le_of_lt h (by decide)
  · exact Nat.lt_of_le_of_lt h (by decide)
  · rw [h]
    decide

theorem isNameChar_of_isDigit {c : Char} (h : c.isDigit = true) : isNameChar c = true := by
  rw [isNameChar, Char.isAlphanum, h, Bool.or_true, Bool.true_or]

theorem isNameChar_of_isNameStart {c : Char} (h : isNameStart c = true) : isNameChar c = true := by
  rw [isNameStart, Bool.or_eq_true] at h
  rw [isNameChar, Char.isAlphanum, Bool.or_eq_true, Bool.or_eq_true]
  rcases h with h | h
  · exact .inl (.inl h)
  · exact .inr h

theorem isBlank_of_isNameChar {c : Char} (h : isNameChar c = true) : isBlank c = false := by
  have hall := of_ascii (fun c => !isNameChar c || !isBlank c) (by decide +kernel)
    (toNat_lt_of_isNameChar h)
  simpa only [h, Bool.not_true, Bool.false_or, Bool.not_eq_true'] using hall

/-- A text in which nothing is blank loses nothing to trimming. -/
theorem trim_eq_self {cs : List Char} (h : ∀ c ∈ cs, isBlank c = false) : trim cs = cs := by
  have hkeep : ∀ ds : List Char, (∀ c ∈ ds, isBlank c = false) → ds.dropWhile isBlank = ds := by
    intro ds hds
    cases ds with
    | nil => rfl
    | cons d ds =>
        rw [List.dropWhile_cons_of_neg]
        rw [hds d List.mem_cons_self]
        exact Bool.false_ne_true
  rw [trim, trimStart, hkeep cs h, trimEnd, hkeep cs.reverse, List.reverse_reverse]
  exact fun c hc => h c (List.mem_reverse.mp hc)

/-- Trimming takes nothing off an end that is not blank. -/
theorem trim_concat (cs : List Char) {c : Char} (h : isBlank c = false) :
    trim (cs ++ [c]) = trimStart cs ++ [c] := by
  have hkeep : ∀ ds : List Char, (c :: ds).dropWhile isBlank = c :: ds :=
    fun ds => List.dropWhile_cons_of_neg (by rw [h]; exact Bool.false_ne_true)
  have hstart : trimStart (cs ++ [c]) = trimStart cs ++ [c] := by
    rw [trimStart, trimStart, List.dropWhile_append, hkeep]
    split
    · rename_i hempty
      rw [List.isEmpty_iff.mp hempty, List.nil_append]
    · rfl
  rw [trim, hstart, trimEnd, List.reverse_concat, hkeep, List.reverse_cons, List.reverse_reverse]

end Text

end ExactCalc
