import ExactCalc.Proofs.Brackets
import ExactCalc.Proofs.Lexeme

/-!
# Lexemes in Their Place

What a lexeme at a place of a text says about the text.

Whether a lexeme begins at a place is up to the character there alone: each rule that
looks at more than that stands in front of another one that takes the character anyway.
So the places where nothing begins are those of a `Foreign` character.

What begins there ends within the text, and it takes one character at least. The
brackets of a text are lexemes of their own. Nothing else that is recognised is made of
brackets, for each rule takes `Inert` characters only, so the brackets of a text are
those of its lexemes.

## Main definitions

* `Foreign`: Characters that begin nothing.
* `Inert`: Characters that are part of something other than a bracket.
* `Occurs`: What a lexeme at its place is.

## Theorems

* `recognise_eq_none_iff`: Nothing begins with a foreign character, and something does
  with every other.
* `inert_of_recognised`, `opens_of_recognised`, `closes_of_recognised`: What lexemes are
  made of.
* `foreign_of_at?`, `occurs_of_at?`: What is at a place of a text.
-/

namespace ExactCalc

open Brackets (opens closes opens_iff closes_iff)

namespace Lexeme

variable {prev : Option Char} {hex : Bool} {c : Char} {cs : List Char} {kind : Kind} {n : Nat}

theorem at?_append (before : List Char) (c : Char) (cs : List Char) (hex : Bool) :
    at? (before ++ c :: cs) before.length hex =
      (recognise before.getLast? hex c cs).map fun (kind, n) =>
        ⟨kind, c :: cs.take n, before.length⟩ := by
  have hprev : (if before.length = 0 then none else (before ++ c :: cs)[before.length - 1]?) =
      before.getLast? := by
    rcases before.eq_nil_or_concat with rfl | ⟨init, last, rfl⟩
    · rfl
    · simp
  unfold at?
  rw [hprev, List.drop_left]

/-- A lexeme at a place of a text is recognised there, and the text goes on behind it. -/
theorem exists_of_at? {text : List Char} {pos : Nat} {l : Lexeme} (h : at? text pos hex = some l) :
    ∃ before c cs kind n, text = before ++ c :: cs ∧ before.length = pos ∧
      recognise before.getLast? hex c cs = some (kind, n) ∧ l = ⟨kind, c :: cs.take n, pos⟩ := by
  rcases hdrop : text.drop pos with _ | ⟨c, cs⟩
  · unfold at? at h
    simp only [hdrop, reduceCtorEq] at h
  · have hlen : pos ≤ text.length := by
      by_contra hlen
      rw [List.drop_eq_nil_of_le (Nat.le_of_not_le hlen)] at hdrop
      cases hdrop
    have htext : text = text.take pos ++ c :: cs := by
      rw [← hdrop, List.take_append_drop]
    have hbefore : (text.take pos).length = pos := List.length_take_of_le hlen
    have hat := at?_append (text.take pos) c cs hex
    rw [← htext, hbefore, h] at hat
    rcases Option.map_eq_some_iff.mp hat.symm with ⟨⟨kind, n⟩, hrec, hl⟩
    exact ⟨_, c, cs, kind, n, htext, hbefore, hrec, hl.symm⟩

/-- A character that begins no lexeme: neither a blank nor an apostrophe, no point, no
    digit, no sign, no bracket, neither a root nor a circle, and no letter of a name. -/
def Foreign (c : Char) : Prop :=
  Numeral.isSeparator c = false ∧ c ≠ '.' ∧ c.isDigit = false ∧ c ∉ operatorSigns ∧
    opens c = false ∧ closes c = false ∧ c ≠ rootSign ∧ c ≠ 'π' ∧ isNameStart c = false

theorem of_ite_eq_none {α : Type} {P : Prop} [Decidable P] {a : α} {x : Option α}
    (h : (if P then some a else x) = none) : ¬P ∧ x = none := by
  by_cases hP : P
  · rw [if_pos hP] at h
    exact absurd h (Option.some_ne_none a)
  · rw [if_neg hP] at h
    exact ⟨hP, h⟩

/-- Whether a lexeme begins at a place is up to the character there. -/
theorem recognise_eq_none_iff : recognise prev hex c cs = none ↔ Foreign c := by
  constructor
  · intro h
    unfold recognise at h
    split at h
    · exact absurd h (Option.some_ne_none _)
    rcases of_ite_eq_none h with ⟨hsep, h⟩
    rcases of_ite_eq_none h with ⟨hpoint, h⟩
    rcases of_ite_eq_none h with ⟨-, h⟩
    rcases of_ite_eq_none h with ⟨hdigit, h⟩
    rcases of_ite_eq_none h with ⟨hsign, h⟩
    rcases of_ite_eq_none h with ⟨hopen, h⟩
    rcases of_ite_eq_none h with ⟨hclose, h⟩
    rcases of_ite_eq_none h with ⟨hroot, h⟩
    split at h
    · exact absurd h (Option.some_ne_none _)
    rcases of_ite_eq_none h with ⟨hcircle, h⟩
    rcases of_ite_eq_none h with ⟨hname, -⟩
    rw [Bool.or_eq_true, not_or, Bool.not_eq_true] at hdigit
    rw [← opens_iff, Bool.not_eq_true] at hopen
    rw [← closes_iff, Bool.not_eq_true] at hclose
    rw [Bool.not_eq_true] at hsep hname
    exact ⟨hsep, hpoint, hdigit.1, hsign, hopen, hclose, hroot, hcircle, hname⟩
  · rintro ⟨hsep, hpoint, hdigit, hsign, hopen, hclose, hroot, hcircle, hname⟩
    have hopen' : ¬(c = '(' ∨ c = '[') := by
      rw [← opens_iff, hopen]
      exact Bool.false_ne_true
    have hclose' : ¬(c = ')' ∨ c = ']') := by
      rw [← closes_iff, hclose]
      exact Bool.false_ne_true
    -- A marker begins with a digit, and a function that is called by name with a letter.
    have hzero : c ≠ '0' := by
      rintro rfl
      exact absurd hdigit (by decide)
    have hletter : c ≠ exponentLetter ∧ c ≠ 's' ∧ c ≠ 'a' := by
      refine ⟨?_, ?_, ?_⟩ <;>
        · rintro rfl
          exact absurd hname (by decide)
    have hhex : Radix.hex.accepts c = false := by
      rw [← Bool.not_eq_true]
      intro haccepts
      have hchar := Radix.isNameChar_of_accepts haccepts
      rw [isNameStart, Bool.or_eq_false_iff] at hname
      rw [isNameChar, Char.isAlphanum, hname.1, hname.2, hdigit] at hchar
      exact Bool.false_ne_true hchar
    have hcalled : functionTail? (c :: cs) = none := by
      rcases htail : functionTail? (c :: cs) with _ | n
      · rfl
      rcases functionTail?_eq_some.mp htail with ⟨name, hmem, rest, hcs, -⟩
      simp only [functionNames, List.mem_cons, List.not_mem_nil, or_false] at hmem
      rcases hmem with rfl | rfl
      · exact absurd (List.cons.inj hcs).1 hletter.2.1
      · exact absurd (List.cons.inj hcs).1 hletter.2.2
    rw [recognise, markerTail?_eq_none (.inl hzero), hcalled]
    simp only [hsep, hpoint, hdigit, hhex, hsign, hopen', hclose', hroot, hcircle, hname,
      beq_eq_false_iff_ne.mpr hletter.1, Bool.and_false, Bool.false_and, Bool.or_self,
      Bool.false_eq_true, if_false]

/-- A character that can be part of a lexeme, but is no bracket. -/
def Inert (c : Char) : Prop :=
  isNameChar c = true ∨ Numeral.isSeparator c = true ∨ c ∈ [':', '.', '√', 'π'] ++ operatorSigns

theorem plain_of_inert (h : Inert c) : opens c = false ∧ closes c = false := by
  have hall : ∀ d ∈ ['(', '[', ')', ']'], ¬(isNameChar d = true ∨ Numeral.isSeparator d = true ∨
      d ∈ [':', '.', '√', 'π'] ++ operatorSigns) := Text.forall_of_all (by decide)
  have hnone : c ∉ ['(', '[', ')', ']'] := fun hmem => hall c hmem h
  simp only [List.mem_cons, List.not_mem_nil, or_false, not_or] at hnone
  rw [← Bool.not_eq_true, ← Bool.not_eq_true, opens_iff, closes_iff, not_or, not_or]
  exact ⟨⟨hnone.1, hnone.2.1⟩, hnone.2.2⟩

/-- A lexeme that is no bracket holds none either. -/
theorem inert_of_recognised (h : Recognised prev hex c cs kind n) (hopening : kind ≠ .opening)
    (hclosing : kind ≠ .closing) : ∀ d ∈ c :: cs.take n, Inert d := by
  have hsingle : Inert c → ∀ d ∈ c :: cs.take 0, Inert d := by
    intro hc d hd
    rwa [List.mem_singleton.mp hd]
  have hlisted : ∀ {d}, d ∈ [':', '.', '√', 'π'] ++ operatorSigns → Inert d :=
    fun hd => .inr (.inr hd)
  -- Most lexemes are the single character `c`; markers, function names and names are longer.
  cases h with
  | marker n h =>
      have hshort : ∀ d ∈ Radix.shortMarker, isNameChar d = true := Text.forall_of_all (by decide)
      rcases h with h | ⟨r, h⟩ <;> rw [h]
      · exact fun d hd => .inl (hshort d hd)
      · intro d hd
        rcases isNameChar_or_colon r d hd with hchar | rfl
        · exact .inl hchar
        · exact hlisted (by decide)
  | separator h => exact hsingle (.inr (.inl h))
  | point h => exact hsingle (hlisted (by rw [h]; decide))
  | exponent hhex h hprev => exact hsingle (.inl (by rw [h]; decide))
  | digit h =>
      rcases h with h | ⟨-, h⟩
      · exact hsingle (.inl (Text.isNameChar_of_isDigit h))
      · exact hsingle (.inl (Radix.isNameChar_of_accepts h))
  | operator h => exact hsingle (hlisted (List.mem_append_right _ h))
  | opening h => exact absurd rfl hopening
  | closing h => exact absurd rfl hclosing
  | root h => exact hsingle (hlisted (by rw [h]; decide))
  | called n h =>
      have hnames : ∀ name ∈ functionNames, name.all isNameChar = true := by decide
      exact fun d hd => .inl (List.all_eq_true.mp (hnames _ h) d hd)
  | circle h => exact hsingle (hlisted (by rw [h]; decide))
  | name h hname =>
      intro d hd
      rw [← List.prefix_iff_eq_take.mp (List.takeWhile_prefix isNameChar)] at hd
      rcases List.mem_cons.mp hd with rfl | hd
      · exact .inl (Text.isNameChar_of_isNameStart h)
      · exact .inl (List.all_eq_true.mp List.all_takeWhile d hd)

/-- A bracket is a lexeme of its own. -/
theorem opens_of_recognised (h : Recognised prev hex c cs .opening n) : n = 0 ∧ opens c = true := by
  cases h with
  | opening h => exact ⟨rfl, opens_iff.mpr h⟩

theorem closes_of_recognised (h : Recognised prev hex c cs .closing n) :
    n = 0 ∧ closes c = true := by
  cases h with
  | closing h => exact ⟨rfl, closes_iff.mpr h⟩

/-- A lexeme stands in a text where it says it does, takes a character at least, and is
    a bracket or holds none. -/
structure Occurs (text : List Char) (l : Lexeme) : Prop where
  start_lt_stop : l.start < l.stop
  stop_le : l.stop ≤ text.length
  take_stop : text.take l.stop = text.take l.start ++ l.text
  opening : l.kind = .opening → ∃ c, l.text = [c] ∧ opens c = true
  closing : l.kind = .closing → ∃ c, l.text = [c] ∧ closes c = true
  plain : l.kind ≠ .opening → l.kind ≠ .closing → ∀ c ∈ l.text, opens c = false ∧ closes c = false

/-- What is found at a place occurs there, and it does not begin with a foreign
    character. -/
theorem occurs_of_at? {text : List Char} {pos : Nat} {l : Lexeme} (h : at? text pos hex = some l) :
    l.start = pos ∧ l.Occurs text ∧ ∃ c, text[pos]? = some c ∧ ¬Foreign c := by
  rcases exists_of_at? h with ⟨before, c, cs, kind, n, rfl, rfl, hrec, rfl⟩
  have hlen := length_of_recognise hrec
  have hrecognised := recognised_of_eq_some hrec
  have hstop : (Lexeme.mk kind (c :: cs.take n) before.length).stop = before.length + (n + 1) := by
    rw [stop, List.length_cons, List.length_take_of_le hlen]
  refine ⟨rfl, ⟨start_lt_stop kind c cs n _, ?_, ?_, ?_, ?_, ?_⟩, c, ?_, ?_⟩
  · rw [hstop, List.length_append, List.length_cons]
    omega
  · rw [hstop, List.take_length_add_append, List.take_left, List.take_succ_cons]
  · rintro rfl
    rcases opens_of_recognised hrecognised with ⟨rfl, hopens⟩
    exact ⟨c, rfl, hopens⟩
  · rintro rfl
    rcases closes_of_recognised hrecognised with ⟨rfl, hcloses⟩
    exact ⟨c, rfl, hcloses⟩
  · intro hopening hclosing d hd
    exact plain_of_inert (inert_of_recognised hrecognised hopening hclosing d hd)
  · rw [List.getElem?_append_right (Nat.le_refl _), Nat.sub_self]
    rfl
  · intro hforeign
    rw [recognise_eq_none_iff.mpr hforeign] at hrec
    cases hrec

/-- Where nothing is found, there is a foreign character. -/
theorem foreign_of_at? {text : List Char} {pos : Nat} (hc : text[pos]? = some c)
    (h : at? text pos hex = none) : Foreign c := by
  rcases List.getElem?_eq_some_iff.mp hc with ⟨hlt, hget⟩
  have hat := at?_append (text.take pos) c (text.drop (pos + 1)) hex
  rw [← hget, ← List.drop_eq_getElem_cons hlt, List.take_append_drop,
    List.length_take_of_le (Nat.le_of_lt hlt), h, hget] at hat
  exact recognise_eq_none_iff.mp (Option.map_eq_none_iff.mp hat.symm)

end Lexeme

end ExactCalc
