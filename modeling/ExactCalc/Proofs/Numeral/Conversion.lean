import ExactCalc.Numeral.Conversion
import ExactCalc.Proofs.Numeral
import ExactCalc.Proofs.Radix
import Mathlib.Data.List.TakeWhile

/-!
# The Language of Convertible Texts

Which texts can be converted, and what a conversion writes.

A conversion takes a text apart from its front: a minus sign, blanks, a marker, and
then digits with separators among them. `IntegerText` is what it expects to find, as
a text put together from these parts. That a convertible text has the parts follows
from the way it is taken apart. The other direction has one difficulty: a text has
its parts in more than one way, because blanks behind the sign may count as a gap or
as separators in front of the first digit. Whichever way is meant, the digits are the
same. A marker, by contrast, cannot be mistaken. Every marker has a letter that is a
digit in no base, so a text of digits and separators begins with no marker.

For the same reason what a conversion writes can be converted again. It is written
with digits alone, with a sign in front if the number is negative, and denotes the
number that was read.

## Main definitions

* `digitsOf`: The digits of a text, its separators dropped.
* `denoted`: The number that digits denote, as a sum of powers of the base.
* `Announces`: The markers, and the bases that they stand for.
* `IntegerText`, `IntegerText.toInt`: A text that denotes an integer, taken apart.
* `Canonical`: The numeral of an integer, without leading zeros.

## Theorems

* `readDigits_eq_ok`: Digits and separators are read, and nothing else.
* `integerText_of_readInt`, `readInt_of_integerText`: The texts that are read.
* `canonical_iff`: What is written is the one canonical numeral.
* `convert_composes`: Acceptance, the numeral that is written, and a second
  conversion.
-/

namespace ExactCalc

namespace Numeral

/-- The digits of a text, its separators dropped. -/
def digitsOf (cs : List Char) : List Char := cs.filter (!isSeparator ·)

/-- The minus sign of a number, or nothing. -/
def signText (negative : Bool) : List Char := if negative then ['-'] else []

/-- The number that digits denote, as a sum of powers of the base. -/
def denoted (r : Radix) (ds : List Char) : Nat :=
  Nat.ofDigits r.size (ds.reverse.map digitValue)

/-- The markers that may stand in front of digits, and the base in force behind each. -/
inductive Announces (source : Radix) : List Char → Radix → Prop where
  | nothing : Announces source [] source
  | bin : Announces source ['0', 'b', ':'] .bin
  | oct : Announces source ['0', 'o', ':'] .oct
  | dec : Announces source ['0', 'd', ':'] .dec
  | hex : Announces source ['0', 'x', ':'] .hex
  | shortHex : Announces source ['0', 'x'] .hex

/-- A text that denotes an integer, taken apart. The digits are those of base `source`
    unless a marker says otherwise. -/
structure IntegerText (source : Radix) (text : List Char) where
  negative : Bool
  gap : List Char
  mark : List Char
  radix : Radix
  body : List Char
  text_eq : text = signText negative ++ (gap ++ (mark ++ body))
  gap_blank : ∀ c ∈ gap, Text.isBlank c = true
  announces : Announces source mark radix
  body_class : ∀ c ∈ body, isSeparator c = true ∨ radix.accepts c = true
  has_digit : ∃ c ∈ body, radix.accepts c = true

/-- The integer that a text denotes. -/
def IntegerText.toInt {source : Radix} {text : List Char} (t : IntegerText source text) : Int :=
  if t.negative then -(denoted t.radix (digitsOf t.body) : Int)
  else denoted t.radix (digitsOf t.body)

/-- The numeral of an integer in a base: digits of the base that denote its size, no
    zero in front of others, and a minus sign just if it is negative. -/
def Canonical (r : Radix) (n : Int) (cs : List Char) : Prop :=
  ∃ ds, cs = signText (decide (n < 0)) ++ ds ∧ ds ≠ [] ∧ (∀ c ∈ ds, r.accepts c = true) ∧
    (ds.head? = some '0' → ds = ['0']) ∧ denoted r ds = n.natAbs

theorem value_eq_denoted (r : Radix) (ds : List Char) : value r.size ds = denoted r ds := by
  induction ds using List.reverseRecOn with
  | nil => rfl
  | append_singleton ds c ih =>
      rw [value_append_singleton, ih, denoted, denoted, List.reverse_concat, List.map_cons,
        Nat.ofDigits_cons]
      ring

section Parts

variable {source r : Radix} {whole : String} {cs ds mark body gap rest text : List Char}

theorem isSeparator_of_isBlank {c : Char} (h : Text.isBlank c = true) : isSeparator c = true := by
  rw [isSeparator, h, Bool.true_or]

/-- Digits and separators are read, and nothing else. -/
theorem readDigits_eq_ok : readDigits whole r cs = .ok ds ↔
    (∀ c ∈ cs, isSeparator c = true ∨ r.accepts c = true) ∧ ds = digitsOf cs := by
  induction cs generalizing ds with
  | nil =>
      rw [readDigits, Except.ok.injEq]
      exact ⟨fun h => ⟨fun c hc => absurd hc List.not_mem_nil, h.symm⟩, fun h => h.2.symm⟩
  | cons c cs ih =>
      rw [readDigits, List.forall_mem_cons]
      by_cases hsep : isSeparator c = true
      · have hdigits : digitsOf (c :: cs) = digitsOf cs :=
          List.filter_cons_of_neg (by rw [hsep]; exact Bool.false_ne_true)
        rw [if_pos hsep, ih, hdigits]
        exact ⟨fun h => ⟨⟨.inl hsep, h.1⟩, h.2⟩, fun h => ⟨h.1.2, h.2⟩⟩
      have hdigits : digitsOf (c :: cs) = c :: digitsOf cs :=
        List.filter_cons_of_pos (by rw [Bool.eq_false_iff.mpr hsep]; rfl)
      rw [if_neg hsep, hdigits]
      by_cases hdigit : r.accepts c = true
      · -- No base has a point or a slash for a digit.
        have hfraction : ¬(c = '.' ∨ c = '/') := by
          rintro (rfl | rfl) <;> cases r <;> exact absurd hdigit (by decide)
        rw [if_neg hfraction, if_pos hdigit]
        rcases hrest : readDigits whole r cs with e | ds'
        · simp only [Except.map, reduceCtorEq, false_iff]
          rintro ⟨⟨-, hcs⟩, -⟩
          rw [ih.mpr ⟨hcs, rfl⟩] at hrest
          cases hrest
        · rcases ih.mp hrest with ⟨hcs, rfl⟩
          rw [Except.map, Except.ok.injEq]
          exact ⟨fun h => ⟨⟨.inr hdigit, hcs⟩, h.symm⟩, fun h => h.2.symm⟩
      · refine iff_of_false (fun h => ?_) (fun h => h.1.1.elim hsep hdigit)
        rw [if_neg hdigit] at h
        split at h <;> cases h

@[simp, grind =]
theorem digitsOf_append (as bs : List Char) : digitsOf (as ++ bs) = digitsOf as ++ digitsOf bs :=
  List.filter_append ..

theorem digitsOf_separators (h : ∀ c ∈ cs, isSeparator c = true) : digitsOf cs = [] := by
  refine List.filter_eq_nil_iff.mpr (fun c hc => ?_)
  rw [h c hc]
  exact Bool.false_ne_true

/-- Where only digits and separators stand, some digit is left just when one stands
    there. -/
theorem digitsOf_ne_nil (h : ∀ c ∈ cs, isSeparator c = true ∨ r.accepts c = true) :
    digitsOf cs ≠ [] ↔ ∃ c ∈ cs, r.accepts c = true := by
  rw [digitsOf, ne_eq, List.filter_eq_nil_iff]
  push Not
  refine exists_congr fun c => and_congr_right fun hc => ?_
  rcases h c hc with hsep | hdigit
  · rw [hsep]
    refine iff_of_false Bool.false_ne_true (fun hdigit => ?_)
    rw [Radix.isSeparator_of_accepts hdigit] at hsep
    exact Bool.false_ne_true hsep
  · rw [Radix.isSeparator_of_accepts hdigit]
    exact iff_of_true rfl hdigit

/-- A text is what is left of it after trimming, between blanks. -/
theorem trimStart_eq (cs : List Char) :
    ∃ lead, cs = lead ++ Text.trimStart cs ∧ ∀ c ∈ lead, Text.isBlank c = true :=
  ⟨cs.takeWhile Text.isBlank, List.takeWhile_append_dropWhile.symm,
    fun _ hc => List.mem_takeWhile_imp hc⟩

theorem trim_eq (cs : List Char) : ∃ lead trail, cs = lead ++ (Text.trim cs ++ trail) ∧
    (∀ c ∈ lead, isSeparator c = true) ∧ ∀ c ∈ trail, isSeparator c = true := by
  rcases trimStart_eq cs with ⟨lead, hlead, hblank⟩
  refine ⟨lead, ((Text.trimStart cs).reverse.takeWhile Text.isBlank).reverse, ?_,
    fun c hc => isSeparator_of_isBlank (hblank c hc), fun c hc => ?_⟩
  · rw [Text.trim, Text.trimEnd, ← List.reverse_append, List.takeWhile_append_dropWhile,
      List.reverse_reverse]
    exact hlead
  · rw [List.mem_reverse] at hc
    exact isSeparator_of_isBlank (List.mem_takeWhile_imp hc)

/-- What a text begins with: a marker, and the base it stands for, or no marker. -/
theorem splitMarker?_cases (source : Radix) (cs : List Char) :
    ∃ mark r body, (Radix.splitMarker? cs).getD (source, cs) = (r, body) ∧ cs = mark ++ body ∧
      Announces source mark r := by
  unfold Radix.splitMarker?
  rcases hlong : Radix.splitLongMarker? cs with _ | ⟨r, body⟩
  · rcases hshort : Radix.stripStart? Radix.shortMarker cs with _ | body
    · exact ⟨[], source, cs, rfl, rfl, .nothing⟩
    · exact ⟨Radix.shortMarker, .hex, body, rfl, Radix.stripStart?_eq_some.mp hshort, .shortHex⟩
  · refine ⟨r.marker, r, body, rfl, Radix.splitLongMarker?_eq_some.mp hlong, ?_⟩
    cases r
    · exact .bin
    · exact .oct
    · exact .dec
    · exact .hex

/-- Whether a text begins with a minus sign, and what stands behind the sign and the
    blanks after it. -/
def splitMinus : List Char → Bool × List Char
  | '-' :: rest => (true, Text.trimStart rest)
  | rest => (false, rest)

theorem splitMinus_eq (whole : List Char) :
    ∃ negative gap rest, splitMinus whole = (negative, rest) ∧
      whole = signText negative ++ (gap ++ rest) ∧ ∀ c ∈ gap, Text.isBlank c = true := by
  unfold splitMinus
  split
  · rename_i rest
    rcases trimStart_eq rest with ⟨gap, hrest, hgap⟩
    exact ⟨true, gap, Text.trimStart rest, rfl, congrArg ('-' :: ·) hrest, hgap⟩
  · exact ⟨false, [], _, rfl, rfl, fun c hc => absurd hc List.not_mem_nil⟩

/-- The integer of a text whose sign and marker have been taken off. -/
def signedValue (r : Radix) (negative : Bool) :
    Except ConversionError (List Char) → Except ConversionError Int
  | .error e => .error e
  | .ok [] => .error .empty
  | .ok ds => .ok (if negative then -(value r.size ds : Int) else value r.size ds)

theorem readInt_eq (source : Radix) (text : List Char) :
    readInt source text =
      let (negative, rest) := splitMinus (Text.trim text)
      let (r, body) := (Radix.splitMarker? rest).getD (source, rest)
      signedValue r negative (readDigits (String.ofList (Text.trim text)) r body) := rfl

/-- Neither a letter of a marker, nor its colon, nor the minus sign is a digit or
    separates any. -/
theorem not_foreign {c : Char} (h : isSeparator c = true ∨ r.accepts c = true) :
    c ∉ ['b', 'o', 'd', 'x', ':', '-'] := by
  have hsep : ∀ c ∈ ['b', 'o', 'd', 'x', ':', '-'], isSeparator c = false :=
    Text.forall_of_all (by decide)
  have hdigit : ∀ c ∈ ['b', 'o', 'd', 'x', ':', '-'], r.accepts c = false := by
    cases r <;> exact Text.forall_of_all (by decide)
  intro hc
  rw [hsep c hc, hdigit c hc] at h
  exact h.elim Bool.false_ne_true Bool.false_ne_true

/-- Digits and separators alone begin with no marker. -/
theorem splitMarker?_eq_none (h : ∀ c ∈ cs, isSeparator c = true ∨ r.accepts c = true) :
    Radix.splitMarker? cs = none := by
  have hletter : ∀ d ∈ ['b', 'o', 'd', 'x'], d ∉ cs := fun d hd hmem =>
    not_foreign (h d hmem) (List.mem_append_left [':', '-'] hd)
  unfold Radix.splitMarker?
  rcases hlong : Radix.splitLongMarker? cs with _ | ⟨s, body⟩
  · rcases hshort : Radix.stripStart? Radix.shortMarker cs with _ | body
    · rfl
    · rw [Radix.stripStart?_eq_some.mp hshort] at hletter
      exact absurd (List.mem_append_left body (by decide)) (hletter 'x' (by decide))
  · rcases s.marker_eq with ⟨d, hd, hs⟩
    rw [Radix.splitLongMarker?_eq_some.mp hlong, hs] at hletter
    exact absurd (List.mem_cons_of_mem '0' List.mem_cons_self) (hletter d hd)

@[simp] theorem splitMarker?_marker (r : Radix) (body : List Char) :
    Radix.splitMarker? (r.marker ++ body) = some (r, body) := by
  rw [Radix.splitMarker?, Radix.splitLongMarker?_eq_some.mpr rfl]

/-- The short marker is not the beginning of a long one, since no colon follows it. -/
theorem splitMarker?_shortMarker
    (h : ∀ c ∈ body, isSeparator c = true ∨ r.accepts c = true) :
    Radix.splitMarker? (Radix.shortMarker ++ body) = some (.hex, body) := by
  unfold Radix.splitMarker?
  rcases hlong : Radix.splitLongMarker? (Radix.shortMarker ++ body) with _ | ⟨s, rest⟩
  · rw [Radix.stripStart?_eq_some.mpr rfl]
    rfl
  · rcases s.marker_eq with ⟨d, -, hs⟩
    have htext := Radix.splitLongMarker?_eq_some.mp hlong
    have hbody : body = ':' :: rest := by
      rw [hs, Radix.shortMarker] at htext
      exact (List.cons.inj (List.cons.inj htext).2).2
    exact absurd (by decide) (not_foreign (h ':' (by rw [hbody]; exact List.mem_cons_self)))

theorem Announces.cases (h : Announces source mark r) :
    (mark = [] ∧ r = source) ∨ mark = r.marker ∨ (mark = Radix.shortMarker ∧ r = .hex) := by
  cases h with
  | nothing => exact .inl ⟨rfl, rfl⟩
  | bin | oct | dec | hex => exact .inr (.inl rfl)
  | shortHex => exact .inr (.inr ⟨rfl, rfl⟩)

/-- Whatever marker there is, it is taken off, and the digits behind it are left. -/
theorem splitMarker?_announced (hmark : Announces source mark r)
    (hbody : ∀ c ∈ body, isSeparator c = true ∨ r.accepts c = true) :
    ∃ rest, (Radix.splitMarker? (Text.trimStart (mark ++ body))).getD
        (source, Text.trimStart (mark ++ body)) = (r, rest) ∧
      (∀ c ∈ rest, isSeparator c = true ∨ r.accepts c = true) ∧ digitsOf rest = digitsOf body := by
  rcases hmark.cases with ⟨rfl, rfl⟩ | rfl | ⟨rfl, rfl⟩
  · -- Blanks in front of the first digit may have been taken for the gap.
    rcases trimStart_eq body with ⟨lead, hlead, hblank⟩
    have hrest : ∀ c ∈ Text.trimStart body, isSeparator c = true ∨ r.accepts c = true :=
      fun c hc => hbody c ((List.dropWhile_sublist _).subset hc)
    have hdigits : digitsOf (Text.trimStart body) = digitsOf body := by
      nth_rewrite 2 [hlead]
      rw [digitsOf_append, digitsOf_separators fun c hc => isSeparator_of_isBlank (hblank c hc),
        List.nil_append]
    refine ⟨Text.trimStart body, ?_, hrest, hdigits⟩
    rw [List.nil_append, splitMarker?_eq_none hrest, Option.getD_none]
  · have hkeep : Text.trimStart (r.marker ++ body) = r.marker ++ body := by
      cases r <;> exact Text.trimStart_cons_of_not_blank _ _ (by decide)
    refine ⟨body, ?_, hbody, rfl⟩
    rw [hkeep, splitMarker?_marker, Option.getD_some]
  · have hkeep : Text.trimStart (Radix.shortMarker ++ body) = Radix.shortMarker ++ body :=
      Text.trimStart_cons_of_not_blank _ _ (by decide)
    refine ⟨body, ?_, hbody, rfl⟩
    rw [hkeep, splitMarker?_shortMarker hbody, Option.getD_some]

/-- A text that has been trimmed begins with no blank. -/
@[simp] theorem trimStart_trim (cs : List Char) : Text.trimStart (Text.trim cs) = Text.trim cs := by
  rcases htrim : Text.trim cs with _ | ⟨c, rest⟩
  · rfl
  have hfirst : (Text.trimStart cs).head? = some c := by
    have hends : Text.trim cs <+: Text.trimStart cs := by
      rw [Text.trim, Text.trimEnd, ← List.reverse_suffix, List.reverse_reverse]
      exact List.dropWhile_suffix _
    rcases hends with ⟨trail, htrail⟩
    rw [← htrail, htrim, List.cons_append, List.head?_cons]
  have hblank := List.head?_dropWhile_not Text.isBlank cs
  rw [← Text.trimStart, hfirst] at hblank
  exact Text.trimStart_cons_of_not_blank c rest hblank

/-- The minus sign and the gap are taken off, and with the gap all blanks behind it. -/
theorem splitMinus_signed {negative : Bool} (hgap : ∀ c ∈ gap, Text.isBlank c = true)
    (hrest : '-' ∉ rest)
    (hkeep : Text.trimStart (signText negative ++ (gap ++ rest)) =
      signText negative ++ (gap ++ rest)) :
    splitMinus (signText negative ++ (gap ++ rest)) = (negative, Text.trimStart rest) := by
  have hskip : Text.trimStart (gap ++ rest) = Text.trimStart rest :=
    List.dropWhile_append_of_pos hgap
  cases negative with
  | true => exact congrArg (true, ·) hskip
  | false =>
      -- Without a sign there is no gap either, since the text begins with no blank.
      have hnone : '-' ∉ gap ++ rest := by
        rw [List.mem_append, not_or]
        exact ⟨fun hmem => absurd (hgap '-' hmem) (by decide), hrest⟩
      have htext : gap ++ rest = Text.trimStart rest := hkeep.symm.trans hskip
      rw [signText, if_neg Bool.false_ne_true, List.nil_append, splitMinus]
      · rw [htext]
      · intro cs hcs
        rw [hcs] at hnone
        exact hnone List.mem_cons_self

end Parts

section Reading

variable {source : Radix} {text : List Char} {n : Int}

/-- A text that is read has the parts of an integer. -/
theorem integerText_of_readInt (h : readInt source text = .ok n) :
    ∃ t : IntegerText source (Text.trim text), t.toInt = n := by
  rcases splitMinus_eq (Text.trim text) with ⟨negative, gap, rest, hsign, htrim, hgap⟩
  rcases splitMarker?_cases source rest with ⟨mark, r, body, hsplit, hrest, hmark⟩
  rw [readInt_eq] at h
  simp only [hsign, hsplit] at h
  rcases hread : readDigits (String.ofList (Text.trim text)) r body with e | ds
  · rw [hread] at h
    cases h
  rcases readDigits_eq_ok.mp hread with ⟨hclass, rfl⟩
  rw [hread] at h
  rcases hds : digitsOf body with _ | ⟨d, ds⟩
  · rw [hds] at h
    cases h
  have hdigit : ∃ c ∈ body, r.accepts c = true := by
    rw [← digitsOf_ne_nil hclass, hds]
    exact List.cons_ne_nil d ds
  refine ⟨⟨negative, gap, mark, r, body, by rw [htrim, hrest], hgap, hmark, hclass, hdigit⟩, ?_⟩
  rw [hds] at h
  rw [IntegerText.toInt, ← value_eq_denoted, hds]
  exact Except.ok.inj h

/-- A text with the parts of an integer is read as that integer. -/
theorem readInt_of_integerText (t : IntegerText source (Text.trim text)) :
    readInt source text = .ok t.toInt := by
  rcases t with ⟨negative, gap, mark, r, body, htext, hgap, hmark, hbody, hdigit⟩
  have hrest : '-' ∉ mark ++ body := by
    rw [List.mem_append, not_or]
    refine ⟨?_, fun hmem => absurd (by decide) (not_foreign (hbody '-' hmem))⟩
    cases hmark <;> decide
  have hkeep := trimStart_trim text
  rw [htext] at hkeep
  rcases splitMarker?_announced hmark hbody with ⟨rest, hsplit, hclass, hdigits⟩
  have hread : readDigits (String.ofList (Text.trim text)) r rest = .ok (digitsOf rest) :=
    readDigits_eq_ok.mpr ⟨hclass, rfl⟩
  have hne : digitsOf body ≠ [] := (digitsOf_ne_nil hbody).mpr hdigit
  rw [readInt_eq]
  simp only [htext, splitMinus_signed hgap hrest hkeep, hsplit]
  rw [← htext, hread, hdigits]
  rcases hds : digitsOf body with _ | ⟨d, ds⟩
  · exact absurd hds hne
  · simp only [signedValue, IntegerText.toInt, ← value_eq_denoted, hds]

end Reading

theorem ofInt_eq (r : Radix) (n : Int) :
    ofInt r n = signText (decide (n < 0)) ++ digits r n.natAbs := by
  rw [ofInt, signText]
  by_cases hn : n < 0
  · rw [if_pos hn, decide_eq_true hn]
    rfl
  · rw [if_neg hn, decide_eq_false hn]
    rfl

/-- What is written for an integer is its canonical numeral. -/
theorem canonical_ofInt (r : Radix) (n : Int) : Canonical r n (ofInt r n) := by
  refine ⟨digits r n.natAbs, ofInt_eq r n, digits_ne_nil r _, accepts_of_mem_digits r _,
    fun hhead => ?_, ?_⟩
  · -- Only zero begins with a zero, and it is that digit alone.
    have hzero : n.natAbs = 0 := by
      by_contra hne
      exact head?_digits r (Nat.pos_of_ne_zero hne) hhead
    rw [hzero]
    cases r <;> rfl
  · rw [← value_eq_denoted, value_digits]

/-- The number that digits denote has these digits, if they begin with no zero. -/
theorem digits_denoted {r : Radix} {ds : List Char} (hds : ∀ c ∈ ds, r.accepts c = true)
    (hhead : ds.head? ≠ some '0') :
    Nat.digits r.size (denoted r ds) = ds.reverse.map digitValue := by
  refine Nat.digits_ofDigits r.size (one_lt_size r) _ (fun d hd => ?_) (fun hne hlast => hhead ?_)
  · rcases List.mem_map.mp hd with ⟨c, hc, rfl⟩
    exact (digit_of_accepts (hds c (List.mem_reverse.mp hc))).1
  · rcases ds with _ | ⟨c, ds⟩
    · exact absurd rfl hne
    -- The leading digit counts for nothing, and only zero does.
    have hvalue : digitValue c = 0 := by
      simpa only [List.reverse_cons, List.map_append, List.map_singleton,
        List.getLast_append_singleton] using hlast
    have hc := (digit_of_accepts (hds c List.mem_cons_self)).2
    rw [hvalue] at hc
    rw [List.head?_cons, ← hc]
    rfl

/-- Digits without leading zeros are the digits of the number that they denote. -/
theorem eq_digits {r : Radix} {ds : List Char} (hne : ds ≠ []) (hds : ∀ c ∈ ds, r.accepts c = true)
    (hzero : ds.head? = some '0' → ds = ['0']) : ds = digits r (denoted r ds) := by
  by_cases hhead : ds.head? = some '0'
  · rw [hzero hhead]
    cases r <;> rfl
  have hpos : 0 < denoted r ds := by
    refine Nat.pos_of_ne_zero (fun h0 => hne ?_)
    have hnone := digits_denoted hds hhead
    rw [h0, Nat.digits_zero] at hnone
    exact List.reverse_eq_nil_iff.mp (List.map_eq_nil_iff.mp hnone.symm)
  -- Both rows have the same numbers for digits, and a digit is known from its number.
  have hvalues : ds.reverse.map digitValue =
      (digits r (denoted r ds)).reverse.map digitValue := by
    rw [← digits_denoted hds hhead,
      ← digits_denoted (accepts_of_mem_digits r _) (head?_digits r hpos),
      ← value_eq_denoted r (digits r _), value_digits]
  have hchars : ∀ cs : List Char, (∀ c ∈ cs, r.accepts c = true) →
      (cs.map digitValue).map (fun d => (Nat.digitChar d).toUpper) = cs := by
    intro cs hcs
    rw [List.map_map]
    exact (List.map_congr_left fun c hc => (digit_of_accepts (hcs c hc)).2).trans (List.map_id cs)
  rw [← List.reverse_inj, ← hchars ds.reverse (fun c hc => hds c (List.mem_reverse.mp hc)), hvalues]
  exact hchars _ (fun c hc => accepts_of_mem_digits r _ c (List.mem_reverse.mp hc))

/-- An integer has one canonical numeral in a base, and it is the one that is written. -/
theorem canonical_iff {r : Radix} {n : Int} {cs : List Char} :
    Canonical r n cs ↔ cs = ofInt r n := by
  refine ⟨?_, fun h => h ▸ canonical_ofInt r n⟩
  rintro ⟨ds, rfl, hne, hds, hzero, hvalue⟩
  rw [ofInt_eq, ← hvalue, ← eq_digits hne hds hzero]

/-- What is written for an integer is read as that integer again. -/
@[simp] theorem readInt_ofInt (r : Radix) (n : Int) : readInt r (ofInt r n) = .ok n := by
  have hdigits : ∀ c ∈ digits r n.natAbs, isSeparator c = false :=
    fun c hc => Radix.isSeparator_of_accepts (accepts_of_mem_digits r _ c hc)
  have htrim : Text.trim (ofInt r n) = ofInt r n := by
    refine Text.trim_eq_self (fun c hc => ?_)
    rw [ofInt_eq, signText, List.mem_append] at hc
    rcases hc with hc | hc
    · split at hc
      · rw [List.mem_singleton.mp hc]
        decide
      · exact absurd hc List.not_mem_nil
    · have hsep := hdigits c hc
      rw [isSeparator, Bool.or_eq_false_iff] at hsep
      exact hsep.1
  have hbody : digitsOf (digits r n.natAbs) = digits r n.natAbs := by
    refine List.filter_eq_self.mpr (fun c hc => ?_)
    rw [hdigits c hc]
    rfl
  rcases List.exists_mem_of_ne_nil _ (digits_ne_nil r n.natAbs) with ⟨d, hd⟩
  let t : IntegerText r (Text.trim (ofInt r n)) :=
    ⟨decide (n < 0), [], [], r, digits r n.natAbs, htrim.trans (ofInt_eq r n),
      fun c hc => absurd hc List.not_mem_nil, .nothing,
      fun c hc => .inr (accepts_of_mem_digits r _ c hc), d, hd, accepts_of_mem_digits r _ d hd⟩
  have hvalue : t.toInt = n := by
    simp only [t, IntegerText.toInt, hbody, ← value_eq_denoted, value_digits, decide_eq_true_eq]
    split <;> omega
  rw [readInt_of_integerText t, hvalue]

theorem convert_eq_ok {text result : String} {source target : Radix} :
    convert text source target = .ok result ↔
      ∃ n, readInt source text.toList = .ok n ∧ result = String.ofList (ofInt target n) := by
  rw [convert]
  rcases readInt source text.toList with e | n
  · simp only [Except.map, reduceCtorEq, false_and, exists_false]
  · simp only [Except.map, Except.ok.injEq, exists_eq_left', eq_comm]

/-- A text is converted just when, trimmed, it is a minus sign or none, blanks behind
    the sign, a marker or none, and digits of the base in force with separators among
    them, at least one digit. What is written is the canonical numeral of the integer
    that the text denotes, however its parts are told apart, and converting that
    numeral comes to the same as converting the text. -/
theorem convert_composes (text : String) (a b c : Radix) :
    ((∃ result, convert text a b = .ok result) ↔
        Nonempty (IntegerText a (Text.trim text.toList))) ∧
      ∀ result, convert text a b = .ok result →
        (∀ t : IntegerText a (Text.trim text.toList), Canonical b t.toInt result.toList) ∧
          convert result b c = convert text a c := by
  refine ⟨⟨fun ⟨result, h⟩ => ?_, fun ⟨t⟩ => ?_⟩, fun result h => ?_⟩
  · rcases convert_eq_ok.mp h with ⟨n, hread, -⟩
    rcases integerText_of_readInt hread with ⟨t, -⟩
    exact ⟨t⟩
  · exact ⟨_, convert_eq_ok.mpr ⟨t.toInt, readInt_of_integerText t, rfl⟩⟩
  · rcases convert_eq_ok.mp h with ⟨n, hread, rfl⟩
    refine ⟨fun t => ?_, ?_⟩
    · -- The text is read as one integer only, so all its parts denote that one.
      have ht : n = t.toInt := Except.ok.inj (hread.symm.trans (readInt_of_integerText t))
      rw [String.toList_ofList, ← ht]
      exact canonical_iff.mpr rfl
    · rw [convert, convert, String.toList_ofList, readInt_ofInt, hread]

theorem convert_composes_grouped :
    convert " -  0xF'F 0 " .dec .oct = .ok "-7760" ∧
      (∀ t : IntegerText .dec (Text.trim " -  0xF'F 0 ".toList),
        Canonical .oct t.toInt "-7760".toList) ∧
      convert "-7760" .oct .bin = convert " -  0xF'F 0 " .dec .bin := by
  have h : convert " -  0xF'F 0 " .dec .oct = .ok "-7760" := by decide +kernel
  exact ⟨h, (convert_composes _ _ _ .bin).2 _ h⟩

end Numeral

end ExactCalc
