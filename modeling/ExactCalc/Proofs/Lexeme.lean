import ExactCalc.Lexeme
import ExactCalc.Proofs.Radix
import ExactCalc.Proofs.Text

/-!
# What Is Recognised

The rules by which a lexeme is recognised, read in both directions.

`Recognised` lists the rules with what each of them needs, so that whoever walks
over a text learns from the kind of a lexeme which characters it is made of. The
lemmas that follow go the other way, from the characters to the kind; a rule
applies only where no earlier one does, and the first of all, the marker, needs
a zero. The rest is a matter of which characters belong to which class.

## Main definitions

* `callTail`: Where a function called by a name ends.
* `Recognised`: The rules, one constructor for each.
* `Stops`: A text that no lexeme in front of it runs on into.

## Theorems

* `functionTail?_eq_some`: Which texts begin with a function called by name.
* `recognised_of_eq_some`: What a recognised lexeme is made of.
* `recognise_marker`, `recognise_digit`, `recognise_name` and the like: What
  the characters at a place are recognised as.
* `normal_operator`, `normal_name`: What stands for a sign or a name.
* `recognise_append`, `recognise_congr`: What does not matter to a lexeme.
* `length_of_recognise`: A lexeme does not reach beyond the text.
* `scan_induction`: What every lexeme keeps holds wherever a walk ends.
-/

namespace ExactCalc

namespace Lexeme

/-- What is left of a text behind the name of a function decides whether that
    function is called there. -/
def callTail (name : List Char) : Option (List Char) → Option Nat
  | some (d :: _) => if isNameChar d then none else some (name.length - 1)
  | some [] => some (name.length - 1)
  | none => none

theorem callTail_eq_some {name cs : List Char} {n : Nat} :
    callTail name (Radix.stripStart? name cs) = some n ↔ ∃ rest, cs = name ++ rest ∧
      n = name.length - 1 ∧ ∀ d ∈ rest.head?, isNameChar d = false := by
  constructor
  · intro h
    rcases hstrip : Radix.stripStart? name cs with _ | ⟨_ | ⟨d, ds⟩⟩
    · rw [hstrip] at h
      cases h
    · rw [hstrip] at h
      refine ⟨[], Radix.stripStart?_eq_some.mp hstrip, (Option.some.inj h).symm, fun d hd => ?_⟩
      exact absurd hd (by simp only [List.head?_nil, Option.not_mem_none, not_false_eq_true])
    · rw [hstrip, callTail] at h
      by_cases hd : isNameChar d = true
      · rw [if_pos hd] at h
        cases h
      · rw [if_neg hd] at h
        refine ⟨d :: ds, Radix.stripStart?_eq_some.mp hstrip, (Option.some.inj h).symm, ?_⟩
        intro e he
        rw [List.head?_cons, Option.mem_some_iff] at he
        rwa [← he, ← Bool.not_eq_true]
  · rintro ⟨rest, hcs, rfl, hrest⟩
    rw [Radix.stripStart?_eq_some.mpr hcs]
    cases rest with
    | nil => rfl
    | cons d ds => rw [callTail, hrest d rfl, if_neg Bool.false_ne_true]

/-- A function is called by name where the text begins with that name as a
    whole word. -/
theorem functionTail?_eq_some {cs : List Char} {n : Nat} :
    functionTail? cs = some n ↔ ∃ name ∈ functionNames, ∃ rest, cs = name ++ rest ∧
      n = name.length - 1 ∧ ∀ d ∈ rest.head?, isNameChar d = false := by
  have htail : functionTail? cs =
      functionNames.findSome? fun name => callTail name (Radix.stripStart? name cs) := rfl
  rw [htail]
  constructor
  · intro h
    rcases List.exists_of_findSome?_eq_some h with ⟨name, hname, hn⟩
    exact ⟨name, hname, callTail_eq_some.mp hn⟩
  · rintro ⟨name, hname, hrest⟩
    have hcall := callTail_eq_some.mpr hrest
    rcases hrest with ⟨rest, rfl, -⟩
    simp only [functionNames, List.mem_cons, List.not_mem_nil, or_false] at hname
    -- Neither name begins with the first letter of the other.
    rcases hname with rfl | rfl
    · rw [functionNames, List.findSome?_cons, hcall]
    · rw [functionNames, List.findSome?_cons, List.findSome?_cons, hcall]
      rfl

/-- A whole word is called as a function exactly if it names one. -/
theorem functionTail?_eq_none {w rest : List Char} (hw : ∀ c ∈ w, isNameChar c = true)
    (hrest : ∀ c ∈ rest.head?, isNameChar c = false) (hname : w ∉ functionNames) :
    functionTail? (w ++ rest) = none := by
  rcases htail : functionTail? (w ++ rest) with _ | n
  · rfl
  rcases functionTail?_eq_some.mp htail with ⟨name, hmem, rest', hcs, -, hrest'⟩
  -- Both are the longest word at the front of the same text.
  have hall : ∀ name ∈ functionNames, name.all isNameChar = true := by decide
  have hword := congrArg (List.takeWhile isNameChar) hcs
  rw [Text.takeWhile_of_stops hw hrest,
    Text.takeWhile_of_stops (List.all_eq_true.mp (hall name hmem)) hrest'] at hword
  exact absurd (hword ▸ hmem) hname

/-- The rules by which a lexeme is recognised. -/
inductive Recognised (prev : Option Char) (hex : Bool) (c : Char) (cs : List Char) :
    Kind → Nat → Prop where
  | marker (n : Nat)
      (h : c :: cs.take n = Radix.shortMarker ∨ ∃ r : Radix, c :: cs.take n = r.marker) :
      Recognised prev hex c cs .marker n
  | separator (h : Numeral.isSeparator c = true) : Recognised prev hex c cs .separator 0
  | point (h : c = '.') : Recognised prev hex c cs .point 0
  | exponent (hhex : hex = false) (h : c = exponentLetter) (hprev : endsMantissa prev = true) :
      Recognised prev hex c cs .exponent 0
  | digit (h : c.isDigit = true ∨ (hex = true ∧ Radix.hex.accepts c = true)) :
      Recognised prev hex c cs .digit 0
  | operator (h : c ∈ operatorSigns) : Recognised prev hex c cs .operator 0
  | opening (h : c = '(' ∨ c = '[') : Recognised prev hex c cs .opening 0
  | closing (h : c = ')' ∨ c = ']') : Recognised prev hex c cs .closing 0
  | root (h : c = rootSign) : Recognised prev hex c cs .function 0
  | called (n : Nat) (h : c :: cs.take n ∈ functionNames) : Recognised prev hex c cs .function n
  | circle (h : c = 'π') : Recognised prev hex c cs .constant 0
  | name (h : isNameStart c = true) (hname : c :: cs.takeWhile isNameChar ∉ functionNames) :
      Recognised prev hex c cs .constant (cs.takeWhile isNameChar).length

theorem Recognised.marker_length {prev : Option Char} {hex : Bool} {c : Char} {cs : List Char}
    {kind : Kind} {n : Nat} (h : Recognised prev hex c cs kind n) (hkind : kind = .marker) :
    2 ≤ (c :: cs.take n).length ∧ (c :: cs.take n).length ≤ 3 := by
  cases h with
  | marker n h =>
      rcases h with h | ⟨r, h⟩
      · rw [h]; decide
      · rw [h]; cases r <;> decide
  | _ => cases hkind

theorem stops_dropWhile (cs : List Char) :
    ∀ d ∈ (cs.dropWhile isNameChar).head?, isNameChar d = false := by
  intro d hd
  have h := List.head?_dropWhile_not isNameChar cs
  rw [Option.mem_def.mp hd] at h
  exact h

theorem recognised_marker {prev : Option Char} {hex : Bool} {c : Char} {cs : List Char} {n : Nat}
    (h : markerTail? prev (c :: cs) = some n) : Recognised prev hex c cs .marker n := by
  unfold markerTail? at h
  by_cases hopens : (!opensWord prev) = true
  · rw [if_pos hopens] at h
    cases h
  rw [if_neg hopens] at h
  -- The long form is tried first, and without it the short one of base sixteen.
  by_cases hlong : (Radix.splitLongMarker? (c :: cs)).isSome = true
  · rw [if_pos hlong] at h
    rcases Option.isSome_iff_exists.mp hlong with ⟨⟨r, rest⟩, hr⟩
    have htext := Radix.splitLongMarker?_eq_some.mp hr
    rcases r.marker_eq with ⟨d, -, hmarker⟩
    rw [hmarker, List.cons_append, List.cons.injEq] at htext
    refine .marker n (.inr ⟨r, ?_⟩)
    rw [← Option.some.inj h, htext.1, htext.2, hmarker]
    rfl
  · rw [if_neg hlong] at h
    split at h
    · rename_i d ds hstrip
      have htext := Radix.stripStart?_eq_some.mp hstrip
      rw [Radix.shortMarker, List.cons_append, List.cons.injEq] at htext
      by_cases hd : Radix.hex.accepts d = true
      · rw [if_pos hd] at h
        refine .marker n (.inl ?_)
        rw [← Option.some.inj h, htext.1, htext.2]
        rfl
      · rw [if_neg hd] at h
        cases h
    · cases h

/-- Whatever is recognised is recognised by one of the rules. -/
theorem recognised_of_eq_some {prev : Option Char} {hex : Bool} {c : Char} {cs : List Char}
    {kind : Kind} {n : Nat} (h : recognise prev hex c cs = some (kind, n)) :
    Recognised prev hex c cs kind n := by
  unfold recognise at h
  split at h
  · rename_i hmarker
    cases h
    exact recognised_marker hmarker
  -- The rules are tried in order, and each failure leaves the rest of them.
  by_cases hsep : Numeral.isSeparator c = true
  · rw [if_pos hsep] at h
    cases h
    exact .separator hsep
  rw [if_neg hsep] at h
  by_cases hpoint : c = '.'
  · rw [if_pos hpoint] at h
    cases h
    exact .point hpoint
  rw [if_neg hpoint] at h
  by_cases hexp : (!hex && c == exponentLetter && endsMantissa prev) = true
  · rw [if_pos hexp] at h
    rw [Bool.and_eq_true, Bool.and_eq_true, Bool.not_eq_true', beq_iff_eq] at hexp
    cases h
    exact .exponent hexp.1.1 hexp.1.2 hexp.2
  rw [if_neg hexp] at h
  by_cases hdigit : (c.isDigit || (hex && Radix.hex.accepts c)) = true
  · rw [if_pos hdigit] at h
    rw [Bool.or_eq_true, Bool.and_eq_true] at hdigit
    cases h
    exact .digit hdigit
  rw [if_neg hdigit] at h
  by_cases hsign : c ∈ operatorSigns
  · rw [if_pos hsign] at h
    cases h
    exact .operator hsign
  rw [if_neg hsign] at h
  by_cases hopen : c = '(' ∨ c = '['
  · rw [if_pos hopen] at h
    cases h
    exact .opening hopen
  rw [if_neg hopen] at h
  by_cases hclose : c = ')' ∨ c = ']'
  · rw [if_pos hclose] at h
    cases h
    exact .closing hclose
  rw [if_neg hclose] at h
  by_cases hroot : c = rootSign
  · rw [if_pos hroot] at h
    cases h
    exact .root hroot
  rw [if_neg hroot] at h
  split at h
  · rename_i htail
    cases h
    rcases functionTail?_eq_some.mp htail with ⟨name, hname, rest, hcs, hn, -⟩
    refine .called n ?_
    rcases name with _ | ⟨d, ds⟩
    · exact absurd hname (by decide)
    rw [List.cons_append, List.cons.injEq] at hcs
    rw [hcs.2, hn, List.length_cons, Nat.add_sub_cancel, List.take_left, hcs.1]
    exact hname
  rename_i htail
  by_cases hcircle : c = 'π'
  · rw [if_pos hcircle] at h
    cases h
    exact .circle hcircle
  rw [if_neg hcircle] at h
  by_cases hname : isNameStart c = true
  · rw [if_pos hname] at h
    cases h
    -- A word that names a function would have been called as one.
    refine .name hname (fun hmem => ?_)
    have hcall := functionTail?_eq_some.mpr ⟨_, hmem, cs.dropWhile isNameChar,
      by rw [List.cons_append, List.takeWhile_append_dropWhile], rfl, stops_dropWhile cs⟩
    rw [htail] at hcall
    cases hcall
  · rw [if_neg hname] at h
    cases h

section Forward

variable {prev : Option Char} {hex : Bool} {c : Char} {cs : List Char}

/-- A marker begins with a zero, opens a word, and goes on with the letter of
    its base. -/
theorem markerTail?_eq_none
    (h : c ≠ '0' ∨ opensWord prev = false ∨ ∀ d ∈ cs.head?, d ∉ ['b', 'o', 'd', 'x']) :
    markerTail? prev (c :: cs) = none := by
  rcases htail : markerTail? prev (c :: cs) with _ | n
  · rfl
  have hletter : ∃ d ∈ ['b', 'o', 'd', 'x'], ∃ ds, c :: cs.take n = '0' :: d :: ds := by
    cases (recognised_marker htail : Recognised prev false c cs .marker n) with
    | marker _ hmarker =>
        rcases hmarker with hmarker | ⟨r, hmarker⟩
        · exact ⟨'x', by decide, [], hmarker⟩
        · rcases r.marker_eq with ⟨d, hd, hr⟩
          exact ⟨d, hd, [':'], hmarker.trans hr⟩
  rcases hletter with ⟨d, hd, ds, heq⟩
  rw [List.cons.injEq] at heq
  rcases h with h | h | h
  · exact absurd heq.1 h
  · rw [markerTail?, h, Bool.not_false, if_pos rfl] at htail
    cases htail
  · -- The letter of the marker is the character behind the zero.
    refine absurd hd (h d ?_)
    cases cs with
    | nil =>
        rw [List.take_nil] at heq
        cases heq.2
    | cons e es =>
        cases n with
        | zero =>
            rw [List.take_zero] at heq
            cases heq.2
        | succ n =>
            rw [List.take_succ_cons, List.cons.injEq] at heq
            rw [heq.2.1, List.head?_cons, Option.mem_some_iff]

theorem recognise_operator (h : c ∈ operatorSigns) :
    recognise prev hex c cs = some (.operator, 0) := by
  have hzero : c ≠ '0' := by
    intro hc
    rw [hc] at h
    exact absurd h (by decide)
  rw [recognise, markerTail?_eq_none (.inl hzero)]
  simp only [operatorSigns, List.mem_cons, List.not_mem_nil, or_false] at h
  rcases h with rfl | rfl | rfl | rfl | rfl | rfl | rfl <;> cases hex <;> rfl

/-- The signs that are written as they are typed. -/
theorem mem_operatorSigns (h : c ∈ ['+', '-', '*', '/', '^']) : c ∈ operatorSigns :=
  List.mem_append_left ['×', '÷'] h

@[simp] theorem recognise_opening : recognise prev hex '(' cs = some (.opening, 0) := by
  rw [recognise, markerTail?_eq_none (.inl (by decide))]
  cases hex <;> rfl

@[simp] theorem recognise_closing : recognise prev hex ')' cs = some (.closing, 0) := by
  rw [recognise, markerTail?_eq_none (.inl (by decide))]
  cases hex <;> rfl

@[simp] theorem recognise_root : recognise prev hex rootSign cs = some (.function, 0) := by
  rw [recognise, markerTail?_eq_none (.inl (by decide))]
  cases hex <;> rfl

theorem recognise_separator (h : Numeral.isSeparator c = true) :
    recognise prev hex c cs = some (.separator, 0) := by
  have hzero : c ≠ '0' := by
    rintro rfl
    exact absurd h (by decide)
  rw [recognise, markerTail?_eq_none (.inl hzero)]
  simp only [h, if_true]

@[simp] theorem recognise_point : recognise prev hex '.' cs = some (.point, 0) := by
  rw [recognise, markerTail?_eq_none (.inl (by decide))]
  rfl

theorem recognise_exponent (hprev : endsMantissa prev = true) :
    recognise prev false exponentLetter cs = some (.exponent, 0) := by
  rw [recognise, markerTail?_eq_none (.inl (by decide)), hprev]
  rfl

theorem recognise_marker {r : Radix} {m rest : List Char} (hr : r.marker = c :: m)
    (hprev : opensWord prev = true) : recognise prev hex c (m ++ rest) = some (.marker, 2) := by
  have hlong : Radix.splitLongMarker? (c :: (m ++ rest)) = some (r, rest) := by
    rw [Radix.splitLongMarker?_eq_some, hr, List.cons_append]
  have htail : markerTail? prev (c :: (m ++ rest)) = some 2 := by
    rw [markerTail?, hprev, hlong]
    rfl
  rw [recognise, htail]

/-- The short marker of base sixteen, in front of a digit. -/
theorem recognise_shortMarker {d : Char} {rest : List Char} (hd : Radix.hex.accepts d = true)
    (hprev : opensWord prev = true) :
    recognise prev hex '0' ('x' :: d :: rest) = some (.marker, 1) := by
  have hlong : Radix.splitLongMarker? ('0' :: 'x' :: d :: rest) = none := by
    rcases hs : Radix.splitLongMarker? ('0' :: 'x' :: d :: rest) with _ | ⟨r, tail⟩
    · rfl
    -- A long marker has a colon in the place of the digit.
    have htext := Radix.splitLongMarker?_eq_some.mp hs
    rcases r.marker_eq with ⟨e, -, hr⟩
    rw [hr, List.cons_append, List.cons_append, List.cons_append, List.cons.injEq,
      List.cons.injEq, List.cons.injEq] at htext
    rw [htext.2.2.1] at hd
    exact absurd hd (by decide)
  have htail : markerTail? prev ('0' :: 'x' :: d :: rest) = some 1 := by
    rw [markerTail?, hprev, hlong]
    simp only [Bool.not_true, Bool.false_eq_true, if_false, Option.isSome_none, Radix.shortMarker,
      Radix.stripStart?, if_true, hd]
  rw [recognise, htail]

theorem recognise_digit (h : c.isDigit = true ∨ (hex = true ∧ Radix.hex.accepts c = true))
    (hmarker : markerTail? prev (c :: cs) = none) :
    recognise prev hex c cs = some (.digit, 0) := by
  -- Every digit belongs to base sixteen, and so to none of the classes tried before.
  have haccepts : Radix.hex.accepts c = true :=
    h.elim (fun h => (Radix.accepts_of_isDigit h).2) And.right
  have hsep := Radix.isSeparator_of_accepts haccepts
  have hpoint : c ≠ '.' := by
    rintro rfl
    exact absurd haccepts (by decide)
  have hexp : ¬((!hex && c == exponentLetter && endsMantissa prev) = true) := by
    rcases h with h | ⟨h, -⟩
    · have hne : (c == exponentLetter) = false := by
        rw [beq_eq_false_iff_ne]
        intro hc
        rw [hc] at h
        exact absurd h (by decide)
      rw [hne, Bool.and_false, Bool.false_and]
      exact Bool.false_ne_true
    · rw [h, Bool.not_true, Bool.false_and, Bool.false_and]
      exact Bool.false_ne_true
  have hdigit : (c.isDigit || (hex && Radix.hex.accepts c)) = true := by
    rw [Bool.or_eq_true, Bool.and_eq_true]
    exact h
  rw [recognise, hmarker]
  simp only [hsep, hpoint, hexp, hdigit, if_true, if_false, Bool.false_eq_true]

theorem recognise_called {w rest : List Char} (hname : c :: w ∈ functionNames)
    (hrest : ∀ d ∈ rest.head?, isNameChar d = false) :
    recognise prev hex c (w ++ rest) = some (.function, w.length) := by
  have htail : functionTail? (c :: (w ++ rest)) = some w.length :=
    functionTail?_eq_some.mpr ⟨c :: w, hname, rest, rfl, rfl, hrest⟩
  have hfirst : c = 's' ∨ c = 'a' := by
    simp only [functionNames, List.mem_cons, List.cons.injEq, List.not_mem_nil, or_false] at hname
    exact hname.imp And.left And.left
  have hzero : c ≠ '0' := by
    rcases hfirst with rfl | rfl <;> decide
  rw [recognise, markerTail?_eq_none (.inl hzero), htail]
  rcases hfirst with rfl | rfl <;> cases hex <;> rfl

/-- A name, where its first letter is neither a digit nor a power of ten. -/
theorem recognise_name {w rest : List Char} (hc : isNameStart c = true)
    (hw : ∀ d ∈ w, isNameChar d = true) (hrest : ∀ d ∈ rest.head?, isNameChar d = false)
    (hname : c :: w ∉ functionNames) (hprev : endsMantissa prev = false)
    (hhex : hex = true → Radix.hex.accepts c = false) :
    recognise prev hex c (w ++ rest) = some (.constant, w.length) := by
  have hchar := Text.isNameChar_of_isNameStart hc
  have htail : functionTail? (c :: (w ++ rest)) = none :=
    functionTail?_eq_none (List.forall_mem_cons.mpr ⟨hchar, hw⟩) hrest hname
  -- What starts a name is in none of the classes that are tried before names.
  have hclass := Text.of_ascii (fun c => !isNameStart c || (c != '0' && !Numeral.isSeparator c &&
    c != '.' && !c.isDigit && !decide (c ∈ operatorSigns) && !decide (c = '(' ∨ c = '[') &&
    !decide (c = ')' ∨ c = ']') && c != rootSign && c != 'π')) (by decide +kernel)
    (Text.toNat_lt_of_isNameChar hchar)
  simp only [hc, Bool.not_true, Bool.false_or, Bool.and_eq_true, bne_iff_ne, Bool.not_eq_true',
    decide_eq_false_iff_not] at hclass
  rcases hclass with
    ⟨⟨⟨⟨⟨⟨⟨⟨hzero, hsep⟩, hpoint⟩, hdigit⟩, hsign⟩, hopen⟩, hclose⟩, hroot⟩, hcircle⟩
  have hletter : (hex && Radix.hex.accepts c) = false := by
    cases hex with
    | true => rw [hhex rfl, Bool.and_false]
    | false => rfl
  rw [recognise, markerTail?_eq_none (.inl hzero)]
  simp only [hsep, hpoint, hprev, hdigit, hletter, hsign, hopen, hclose, hroot, hcircle, htail, hc,
    Bool.and_false, Bool.or_false, Bool.false_eq_true, if_false, if_true,
    Text.takeWhile_of_stops hw hrest]

/-- Every sign is written as a plain one. -/
theorem normal_operator (h : c ∈ operatorSigns) (pos : Nat) :
    ∃ e ∈ ['+', '-', '*', '/', '^'], normal ⟨.operator, [c], pos⟩ = [e] := by
  have hall : ∀ c ∈ operatorSigns,
      (if [c] = ['×'] then ['*'] else if [c] = ['÷'] then ['/'] else [c]) ∈
        ['+', '-', '*', '/', '^'].map fun e => [e] := Text.forall_of_all (by decide)
  rcases List.mem_map.mp (hall c h) with ⟨e, he, hnormal⟩
  exact ⟨e, he, hnormal.symm⟩

theorem normal_sign (h : c ∈ ['+', '-', '*', '/', '^']) (pos : Nat) :
    normal ⟨.operator, [c], pos⟩ = [c] := by
  have hall : ∀ c ∈ ['+', '-', '*', '/', '^'],
      (if [c] = ['×'] then ['*'] else if [c] = ['÷'] then ['/'] else [c]) = [c] :=
    Text.forall_of_all (by decide)
  exact hall c h

theorem normal_name (h : isNameStart c = true) (pos : Nat) :
    normal ⟨.constant, c :: cs, pos⟩ = c :: cs := by
  refine if_neg (fun hpi => ?_)
  rw [(List.cons.inj hpi).1] at h
  exact absurd h (by decide)

end Forward

section Cutting

variable {prev prev' : Option Char} {hex : Bool} {c : Char} {cs rest : List Char} {kind : Kind}
  {n : Nat}

/-- A text that no lexeme in front of it runs on into. -/
def Stops (rest : List Char) : Prop :=
  ∀ d ∈ rest.head?, isNameChar d = false ∧ d ≠ ':'

/-- A word or a marker stands wholly in front of such a text, or not at all. -/
theorem stripStart?_append {m : List Char} (hm : ∀ d ∈ m, isNameChar d = true ∨ d = ':')
    (hrest : Stops rest) (as : List Char) :
    Radix.stripStart? m (as ++ rest) = (Radix.stripStart? m as).map (· ++ rest) := by
  rcases hstrip : Radix.stripStart? m (as ++ rest) with _ | tail
  · rcases has : Radix.stripStart? m as with _ | bs
    · rfl
    · rw [Radix.stripStart?_eq_some.mp has, List.append_assoc,
        Radix.stripStart?_eq_some.mpr rfl] at hstrip
      cases hstrip
  have hsplit : ∃ bs, as = m ++ bs ∧ tail = bs ++ rest := by
    rcases List.append_eq_append_iff.mp (Radix.stripStart?_eq_some.mp hstrip) with
      ⟨_ | ⟨d, ds⟩, hm', hrest'⟩ | ⟨bs, has, htail⟩
    · exact ⟨[], by rw [hm', List.append_nil, List.append_nil], hrest'.symm⟩
    · -- The text would begin with a character of the word.
      have hd := hrest d (by rw [hrest']; rfl)
      rcases hm d (by rw [hm']; exact List.mem_append_right _ List.mem_cons_self) with hd' | hd'
      · rw [hd.1] at hd'
        exact absurd hd' Bool.false_ne_true
      · exact absurd hd' hd.2
    · exact ⟨bs, has, htail⟩
  rcases hsplit with ⟨bs, rfl, rfl⟩
  rw [Radix.stripStart?_eq_some.mpr rfl, Option.map_some]

theorem isNameChar_or_colon (r : Radix) : ∀ d ∈ r.marker, isNameChar d = true ∨ d = ':' := by
  cases r <;> exact Text.forall_of_all (by decide)

theorem isSome_splitLongMarker?_append (hrest : Stops rest) (as : List Char) :
    (Radix.splitLongMarker? (as ++ rest)).isSome = (Radix.splitLongMarker? as).isSome := by
  rw [Bool.eq_iff_iff, Option.isSome_iff_exists, Option.isSome_iff_exists]
  constructor
  · rintro ⟨⟨r, tail⟩, h⟩
    have hstrip := stripStart?_append (isNameChar_or_colon r) hrest as
    rw [Radix.stripStart?_eq_some.mpr (Radix.splitLongMarker?_eq_some.mp h)] at hstrip
    rcases Option.map_eq_some_iff.mp hstrip.symm with ⟨bs, hbs, -⟩
    exact ⟨(r, bs), Radix.splitLongMarker?_eq_some.mpr (Radix.stripStart?_eq_some.mp hbs)⟩
  · rintro ⟨⟨r, bs⟩, h⟩
    refine ⟨(r, bs ++ rest), Radix.splitLongMarker?_eq_some.mpr ?_⟩
    rw [Radix.splitLongMarker?_eq_some.mp h, List.append_assoc]

theorem markerTail?_append (hrest : Stops rest) (as : List Char) :
    markerTail? prev (as ++ rest) = markerTail? prev as := by
  have hshort : ∀ d ∈ Radix.shortMarker, isNameChar d = true ∨ d = ':' :=
    Text.forall_of_all (by decide)
  unfold markerTail?
  rw [isSome_splitLongMarker?_append hrest, stripStart?_append hshort hrest]
  rcases Radix.stripStart? Radix.shortMarker as with _ | ⟨_ | ⟨d, ds⟩⟩
  · rfl
  · -- The digit behind the short marker cannot come from the other text.
    rcases rest with _ | ⟨e, es⟩
    · rfl
    · have he : Radix.hex.accepts e = false := by
        rw [← Bool.not_eq_true]
        intro haccepts
        have hchar := (hrest e rfl).1
        rw [Radix.isNameChar_of_accepts haccepts] at hchar
        exact absurd hchar (by simp only [Bool.true_eq_false, not_false_eq_true])
      simp only [Option.map_some, List.nil_append, he, Bool.false_eq_true, if_false]
  · rfl

theorem callTail_append {name : List Char} (hname : ∀ d ∈ name, isNameChar d = true)
    (hrest : Stops rest) (as : List Char) :
    callTail name (Radix.stripStart? name (as ++ rest)) =
      callTail name (Radix.stripStart? name as) := by
  rw [stripStart?_append (fun d hd => .inl (hname d hd)) hrest]
  rcases Radix.stripStart? name as with _ | ⟨_ | ⟨d, ds⟩⟩
  · rfl
  · rcases rest with _ | ⟨e, es⟩
    · rfl
    · rw [Option.map_some, List.nil_append, callTail, (hrest e rfl).1, if_neg Bool.false_ne_true,
        callTail]
  · rfl

theorem functionTail?_append (hrest : Stops rest) (as : List Char) :
    functionTail? (as ++ rest) = functionTail? as := by
  have hnames : ∀ name ∈ functionNames, name.all isNameChar = true := by decide
  have hcall : ∀ name ∈ functionNames, callTail name (Radix.stripStart? name (as ++ rest)) =
      callTail name (Radix.stripStart? name as) :=
    fun name hname => callTail_append (List.all_eq_true.mp (hnames name hname)) hrest as
  show functionNames.findSome? (fun name => callTail name (Radix.stripStart? name (as ++ rest))) =
    functionNames.findSome? (fun name => callTail name (Radix.stripStart? name as))
  simp only [functionNames, List.mem_cons, List.not_mem_nil, or_false, forall_eq_or_imp,
    forall_eq] at hcall
  simp only [functionNames, List.findSome?_cons, List.findSome?_nil, hcall.1, hcall.2]

theorem takeWhile_append_of_stops (hrest : Stops rest) (as : List Char) :
    (as ++ rest).takeWhile isNameChar = as.takeWhile isNameChar := by
  have hnone : rest.takeWhile isNameChar = [] := by
    cases rest with
    | nil => rfl
    | cons d ds => rw [List.takeWhile_cons, (hrest d rfl).1, if_neg Bool.false_ne_true]
  rw [List.takeWhile_append, hnone, List.append_nil]
  split
  · rename_i hlen
    exact (List.IsPrefix.eq_of_length (List.takeWhile_prefix _) hlen).symm
  · rfl

/-- What comes behind a text that no lexeme runs on into changes nothing in front. -/
theorem recognise_append (hrest : Stops rest) :
    recognise prev hex c (cs ++ rest) = recognise prev hex c cs := by
  unfold recognise
  rw [← List.cons_append, markerTail?_append hrest, functionTail?_append hrest,
    takeWhile_append_of_stops hrest]

/-- Of the character before a place it matters only whether a word opens behind it
    and whether a mantissa ends with it. -/
theorem recognise_congr (hopens : opensWord prev = opensWord prev')
    (hends : endsMantissa prev = endsMantissa prev') :
    recognise prev hex c cs = recognise prev' hex c cs := by
  unfold recognise markerTail?
  rw [hopens, hends]

theorem length_of_markerTail? (h : markerTail? prev (c :: cs) = some n) : n ≤ cs.length := by
  unfold markerTail? at h
  split at h
  · cases h
  split at h
  · rename_i hlong
    rcases Option.isSome_iff_exists.mp hlong with ⟨⟨r, tail⟩, hr⟩
    rcases r.marker_eq with ⟨d, -, hmarker⟩
    have hlen := congrArg List.length (Radix.splitLongMarker?_eq_some.mp hr)
    rw [hmarker, List.length_append, List.length_cons] at hlen
    simp only [List.length_cons, List.length_nil] at hlen
    rw [← Option.some.inj h]
    omega
  split at h
  · rename_i d ds hstrip
    have hlen := congrArg List.length (Radix.stripStart?_eq_some.mp hstrip)
    rw [Radix.shortMarker, List.length_append, List.length_cons] at hlen
    simp only [List.length_cons, List.length_nil] at hlen
    split at h
    · rw [← Option.some.inj h]
      omega
    · cases h
  · cases h

theorem length_of_functionTail? (h : functionTail? (c :: cs) = some n) : n ≤ cs.length := by
  rcases functionTail?_eq_some.mp h with ⟨name, -, tail, hcs, rfl, -⟩
  have hlen := congrArg List.length hcs
  rw [List.length_cons, List.length_append] at hlen
  omega

/-- A lexeme does not reach beyond the text. -/
theorem length_of_recognise (h : recognise prev hex c cs = some (kind, n)) : n ≤ cs.length := by
  have hwithin : ∀ (kind : Kind) (n : Nat), n ≤ cs.length →
      ∀ v ∈ some (kind, n), v.2 ≤ cs.length := by
    intro kind n hn v hv
    rwa [← Option.mem_some_iff.mp hv]
  suffices hall : ∀ v ∈ recognise prev hex c cs, v.2 ≤ cs.length from hall (kind, n) h
  unfold recognise
  rcases hmarker : markerTail? prev (c :: cs) with _ | m
  · -- Each rule but those for functions and names takes one character.
    iterate 8
      refine iteInduction (motive := fun x => ∀ v : Kind × Nat, v ∈ x → v.2 ≤ cs.length)
        (fun _ => hwithin _ 0 (Nat.zero_le _)) (fun _ => ?_)
    rcases hcalled : functionTail? (c :: cs) with _ | k
    · refine iteInduction (motive := fun x => ∀ v : Kind × Nat, v ∈ x → v.2 ≤ cs.length)
        (fun _ => hwithin _ 0 (Nat.zero_le _)) (fun _ => ?_)
      refine iteInduction (motive := fun x => ∀ v : Kind × Nat, v ∈ x → v.2 ≤ cs.length)
        (fun _ => hwithin _ _ (List.takeWhile_sublist isNameChar).length_le) (fun _ => ?_)
      exact fun v hv => absurd hv (Option.not_mem_none v)
    · exact hwithin _ k (length_of_functionTail? hcalled)
  · exact hwithin _ m (length_of_markerTail? hmarker)

end Cutting

/-- What holds at the start of a walk and is kept at every lexeme holds where the
    walk ends, be it well or not. -/
theorem scan_induction {σ ε : Type} (hex : σ → Bool) (step : σ → Lexeme → Except ε σ)
    (refuse : σ → Nat → Char → ε) {I : Option Char → List Char → σ → Prop}
    (hstep : ∀ prev pos c cs kind n s s', Recognised prev (hex s) c cs kind n → I prev (c :: cs) s →
      step s ⟨kind, c :: cs.take n, pos⟩ = .ok s' → I (c :: cs.take n).getLast? (cs.drop n) s')
    {prev : Option Char} {pos : Nat} {cs : List Char} {s : σ} (hstart : I prev cs s) :
    (∀ s', scan hex step refuse prev pos cs s = .ok s' → ∃ last, I last [] s') ∧
      ∀ e, scan hex step refuse prev pos cs s = .error e → ∃ last rest s', I last rest s' ∧
        ((∃ pos c, e = refuse s' pos c) ∨ ∃ l, step s' l = .error e) := by
  -- The induction is on the text left over; every lexeme takes a character at least.
  generalize hlen : cs.length = len
  induction len using Nat.strongRecOn generalizing prev pos cs s with
  | ind len ih =>
      cases cs with
      | nil =>
          rw [scan]
          refine ⟨fun s' hs' => ⟨prev, Except.ok.inj hs' ▸ hstart⟩, fun e he => ?_⟩
          cases he
      | cons c cs =>
          rw [scan]
          rcases hrec : recognise prev (hex s) c cs with _ | ⟨kind, n⟩
          · refine ⟨fun s' hs' => ?_, fun e he => ?_⟩
            · cases hs'
            · exact ⟨prev, c :: cs, s, hstart, .inl ⟨pos, c, (Except.error.inj he).symm⟩⟩
          simp only
          rcases hnext : step s ⟨kind, c :: cs.take n, pos⟩ with e | s'
          · refine ⟨fun s' hs' => ?_, fun e' he => ?_⟩
            · cases hs'
            · rw [Except.error.inj he] at hnext
              exact ⟨prev, c :: cs, s, hstart, .inr ⟨_, hnext⟩⟩
          refine ih (cs.drop n).length ?_ (hstep _ _ _ _ _ _ _ _ (recognised_of_eq_some hrec)
            hstart hnext) rfl
          rw [← hlen, List.length_cons, List.length_drop]
          omega

end Lexeme

end ExactCalc
