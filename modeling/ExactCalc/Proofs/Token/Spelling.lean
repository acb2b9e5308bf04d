import ExactCalc.Proofs.Numeral
import ExactCalc.Proofs.Radix
import ExactCalc.Proofs.Text
import ExactCalc.Token

/-!
# Spelling Tokens

Which texts are cut into which tokens.

A text in which every number and every name is followed by a sign is cut at
those signs, since no number and no name runs on over one. `Spells` builds such
texts up together with their tokens, from the back: a sign may stand in front of
any of them, a number or a name only in front of one that starts with a sign or
is empty. Texts spelled that way can be put together as the expressions they
stand for are, with a sign between them.

## Main definitions

* `Stops`: A text that no number and no name runs on into.
* `Spells`: A text and the tokens it is cut into.

## Theorems

* `read_digits_append`: Digits in front of a text, as part of a mantissa.
* `tokenizeFrom_digits`, `tokenizeFrom_name`: A number or a name in front.
* `Spells.append`, `Spells.joined`: Two texts one after the other.
* `Spells.of_minus`: A text behind a minus sign.
* `tokenize_of_spells`: A text is cut into the tokens it spells.
-/

namespace ExactCalc

namespace Token

/-- The characters that are tokens on their own. -/
def signs : List Char := ['(', ')', '+', '-', '*', '/', '^', 'π', '√']

theorem mem_signs_of_ofChar? {c : Char} {t : Token} (h : ofChar? c = some t) : c ∈ signs := by
  unfold ofChar? at h
  split at h <;> first | decide | cases h

/-- A text begins with a sign, or is empty. -/
def Stops (cs : List Char) : Prop :=
  ∀ c ∈ cs.head?, (ofChar? c).isSome = true

theorem stops_nil : Stops [] :=
  fun c hc => absurd hc (by simp only [List.head?_nil, Option.not_mem_none, not_false_eq_true])

theorem stops_cons {c : Char} {t : Token} (cs : List Char) (h : ofChar? c = some t) :
    Stops (c :: cs) := by
  intro d hd
  simp only [List.head?_cons, Option.mem_some_iff] at hd
  rw [← hd, h]
  rfl

theorem Stops.append {as bs : List Char} (ha : Stops as) (hb : Stops bs) : Stops (as ++ bs) := by
  cases as with
  | nil => exact hb
  | cons a as => exact ha

/-- A text that stops begins with no character of a class that holds no sign. -/
theorem Stops.not_of_class {p : Char → Bool} {rest : List Char} (hrest : Stops rest)
    (hp : ∀ c ∈ signs, p c = false) : ∀ c ∈ rest.head?, p c = false := by
  intro c hc
  rcases Option.isSome_iff_exists.mp (hrest c hc) with ⟨t, ht⟩
  exact hp c (mem_signs_of_ofChar? ht)

theorem Stops.not_nameChar {rest : List Char} (hrest : Stops rest) :
    ∀ c ∈ rest.head?, isNameChar c = false :=
  hrest.not_of_class (Text.forall_of_all (by decide))

/-- A class that holds no sign ends where a text stops. -/
theorem takeWhile_append {p : Char → Bool} {ds rest : List Char} (hds : ∀ c ∈ ds, p c = true)
    (hp : ∀ c ∈ signs, p c = false) (hrest : Stops rest) : (ds ++ rest).takeWhile p = ds :=
  Text.takeWhile_of_stops hds (hrest.not_of_class hp)

/-- What a base accepts has to be judged as a digit of it. -/
theorem isDigitCandidate_of_accepts {r : Radix} {c : Char} (h : r.accepts c = true) :
    isDigitCandidate r c = true := by
  rw [isDigitCandidate, Bool.or_eq_true, Bool.and_eq_true, beq_iff_eq]
  by_cases hr : r = .hex
  · exact .inr ⟨hr, hr ▸ h⟩
  · exact .inl (Radix.isDigit_of_accepts hr h)

/-- Digits of the base extend what has been read of a mantissa, whatever follows
    them. -/
theorem read_digits_append {r : Radix} {ds : List Char} (hds : ∀ c ∈ ds, r.accepts c = true)
    (pos : Nat) (m : Mantissa) (rest : List Char) :
    Mantissa.read r pos m (ds ++ rest) =
      Mantissa.read r (pos + ds.length)
        ⟨ds.foldl (fun n c => n * r.size + Numeral.digitValue c) m.value, m.count + ds.length,
          m.places.map (· + ds.length)⟩ rest := by
  induction ds generalizing pos m with
  | nil => rcases m with ⟨value, count, _ | places⟩ <;> rfl
  | cons d ds ih =>
      have hd : r.accepts d = true := hds d List.mem_cons_self
      have hpoint : d ≠ '.' := by
        rintro rfl
        exact absurd hd (by cases r <;> decide)
      rw [List.cons_append, Mantissa.read, if_neg hpoint, if_pos hd,
        ih (fun c hc => hds c (List.mem_cons_of_mem d hc))]
      simp only [Mantissa.push, List.foldl_cons, List.length_cons, Option.map_map]
      have hplaces :
          (fun k => k + ds.length) ∘ (fun k => k + 1) = fun k => k + (ds.length + 1) := by
        funext k
        simp only [Function.comp_apply]
        omega
      rw [hplaces, Nat.add_assoc pos, Nat.add_assoc m.count, Nat.add_comm 1]

/-- A text of digits of a base followed by a stop is one number of that base. -/
theorem readNumber_digits {r : Radix} {ds rest : List Char} (hne : ds ≠ [])
    (hds : ∀ c ∈ ds, r.accepts c = true) (hrest : Stops rest) (pos : Nat) :
    readNumber r pos (ds ++ rest) = .ok ((Numeral.value r.size ds : Rat), ds.length) := by
  have hrun : (ds ++ rest).takeWhile (fun c => c == '.' || isDigitCandidate r c) = ds := by
    refine takeWhile_append (fun c hc => ?_) (Text.forall_of_all (by cases r <;> decide)) hrest
    rw [isDigitCandidate_of_accepts (hds c hc), Bool.or_true]
  have hlen : 0 < ds.length := List.length_pos_iff.mpr hne
  have hread : Mantissa.read r pos .empty ds =
      .ok ⟨Numeral.value r.size ds, 0 + ds.length, none⟩ := by
    have h := read_digits_append hds pos .empty []
    rwa [List.append_nil, Mantissa.read] at h
  unfold readNumber
  rw [hrun]
  simp only [hread]
  rw [if_neg (by omega), List.drop_left]
  have hvalue : Mantissa.toRat r ⟨Numeral.value r.size ds, 0 + ds.length, none⟩ =
      (Numeral.value r.size ds : Rat) := Rat.mkRat_one _
  cases rest with
  | nil => exact congrArg (fun q => Except.ok (q, ds.length)) hvalue
  | cons c cs =>
      -- A stop is no letter of a power of ten, so the number ends with its digits.
      have hletter : ¬(r ≠ .hex ∧ c = exponentLetter) := by
        rintro ⟨-, hc⟩
        have hsign := hrest c rfl
        rw [hc] at hsign
        exact absurd hsign (by decide)
      simp only
      rw [if_neg hletter]
      exact congrArg (fun q => Except.ok (q, ds.length)) hvalue

theorem ofChar?_of_isNameChar {c : Char} (h : isNameChar c = true) : ofChar? c = none := by
  rcases hc : ofChar? c with _ | t
  · rfl
  · have hall : ∀ c ∈ signs, isNameChar c = false := Text.forall_of_all (by decide)
    rw [hall c (mem_signs_of_ofChar? hc)] at h
    exact absurd h Bool.false_ne_true

theorem tokenizeFrom_number {pos n : Nat} {c : Char} {cs : List Char} {q : Rat}
    (hc : c.isDigit = true) (hmarker : Radix.splitLongMarker? (c :: cs) = none)
    (hread : readNumber .dec pos (c :: cs) = .ok (q, n)) :
    tokenizeFrom pos (c :: cs) = (tokenizeFrom (pos + n) (cs.drop (n - 1))).map (.num q :: ·) := by
  have hname := Text.isNameChar_of_isDigit hc
  rw [tokenizeFrom, Text.isBlank_of_isNameChar hname]
  simp only [Bool.false_eq_true, if_false, ofChar?_of_isNameChar hname]
  split
  · rename_i hsome
    rw [hmarker] at hsome
    cases hsome
  · simp only [hc, Bool.true_or, if_true, hread]

/-- The longest name at the front of a text. -/
theorem tokenizeFrom_word {pos : Nat} {c : Char} {cs : List Char} (hc : isNameStart c = true)
    (hmarker : Radix.splitLongMarker? (c :: cs) = none) :
    tokenizeFrom pos (c :: cs) =
      (tokenizeFrom (pos + 1 + (cs.takeWhile isNameChar).length)
        (cs.drop (cs.takeWhile isNameChar).length)).map
          (ofName (c :: cs.takeWhile isNameChar) :: ·) := by
  have hname := Text.isNameChar_of_isNameStart hc
  have hdigit : (c.isDigit || c == '.') = false := by
    have hall := Text.of_ascii (fun c => !isNameStart c || !(c.isDigit || c == '.'))
      (by decide +kernel) (Text.toNat_lt_of_isNameChar hname)
    simpa only [hc, Bool.not_true, Bool.false_or, Bool.not_eq_true'] using hall
  rw [tokenizeFrom, Text.isBlank_of_isNameChar hname]
  simp only [Bool.false_eq_true, if_false, ofChar?_of_isNameChar hname]
  split
  · rename_i hsome
    rw [hmarker] at hsome
    cases hsome
  · simp only [hdigit, Bool.false_eq_true, if_false, hc, if_true]

/-- The first character of a text that stops belongs to no marker. -/
theorem Stops.not_mem {cs : List Char} (h : Stops cs) :
    ∀ d ∈ cs.head?, d ∉ ['b', 'o', 'd', 'x'] := by
  intro d hd hmem
  have hall : ∀ d ∈ ['b', 'o', 'd', 'x'], (ofChar? d).isSome = false :=
    Text.forall_of_all (by decide)
  have hsome := h d hd
  rw [hall d hmem] at hsome
  exact absurd hsome Bool.false_ne_true

theorem tokenizeFrom_digits (pos n : Nat) {rest : List Char} (hrest : Stops rest) :
    tokenizeFrom pos (Numeral.digits .dec n ++ rest) =
      (tokenizeFrom (pos + (Numeral.digits .dec n).length) rest).map (.num n :: ·) := by
  have hds := Numeral.accepts_of_mem_digits .dec n
  have hread := readNumber_digits (Numeral.digits_ne_nil .dec n) hds hrest pos
  rw [Numeral.value_digits] at hread
  rcases hcs : Numeral.digits .dec n with _ | ⟨c, cs⟩
  · exact absurd hcs (Numeral.digits_ne_nil .dec n)
  rw [hcs] at hds hread
  -- What follows the first digit is a digit or a stop, so no marker begins here.
  have hmarker : Radix.splitLongMarker? (c :: (cs ++ rest)) = none := by
    refine Radix.splitLongMarker?_eq_none ?_
    cases cs with
    | nil => exact hrest.not_mem
    | cons d ds =>
        intro e he
        simp only [List.cons_append, List.head?_cons, Option.mem_some_iff] at he
        have hd := hds d (List.mem_cons_of_mem c List.mem_cons_self)
        rw [← he]
        exact Radix.not_markerLetter_of_isDigit (Radix.isDigit_of_accepts (by decide) hd)
  have hdigit := Radix.isDigit_of_accepts (by decide) (hds c List.mem_cons_self)
  rw [List.cons_append, tokenizeFrom_number hdigit hmarker hread, List.length_cons,
    Nat.add_sub_cancel, List.drop_left]

theorem tokenizeFrom_name (pos : Nat) {c : Char} {cs rest : List Char}
    (hc : isNameStart c = true) (hcs : ∀ d ∈ cs, isNameChar d = true)
    (hrest : ∀ d ∈ rest.head?, isNameChar d = false) :
    tokenizeFrom pos (c :: cs ++ rest) =
      (tokenizeFrom (pos + 1 + cs.length) rest).map (ofName (c :: cs) :: ·) := by
  have htake : (cs ++ rest).takeWhile isNameChar = cs := Text.takeWhile_of_stops hcs hrest
  -- A marker begins with a zero, and no name does.
  have hmarker : Radix.splitLongMarker? (c :: (cs ++ rest)) = none := by
    rcases hs : Radix.splitLongMarker? (c :: (cs ++ rest)) with _ | ⟨r, tail⟩
    · rfl
    have htext := Radix.splitLongMarker?_eq_some.mp hs
    rcases r.marker_eq with ⟨d, -, hr⟩
    rw [hr, List.cons_append, List.cons.injEq] at htext
    rw [htext.1] at hc
    exact absurd hc (by decide)
  rw [List.cons_append, tokenizeFrom_word hc hmarker, htake, List.drop_left]

/-- A text and the tokens it is cut into: signs, and numbers and names each of
    which a sign or the end follows. -/
inductive Spells : List Char → List Token → Prop where
  | nil : Spells [] []
  | sign {c : Char} {t : Token} {cs : List Char} {ts : List Token} (ht : ofChar? c = some t)
      (h : Spells cs ts) : Spells (c :: cs) (t :: ts)
  | digits {cs : List Char} {ts : List Token} (n : Nat) (hstop : Stops cs) (h : Spells cs ts) :
      Spells (Numeral.digits .dec n ++ cs) (.num n :: ts)
  | name {c : Char} {w cs : List Char} {ts : List Token} (hc : isNameStart c = true)
      (hw : ∀ d ∈ w, isNameChar d = true) (hstop : Stops cs) (h : Spells cs ts) :
      Spells (c :: w ++ cs) (ofName (c :: w) :: ts)

theorem spells_digits (n : Nat) : Spells (Numeral.digits .dec n) [.num n] := by
  have h := Spells.digits n stops_nil .nil
  rwa [List.append_nil] at h

theorem spells_name {c : Char} {cs : List Char} (hc : isNameStart c = true)
    (hcs : ∀ d ∈ cs, isNameChar d = true) : Spells (c :: cs) [ofName (c :: cs)] := by
  have h := Spells.name hc hcs stops_nil .nil
  rwa [List.append_nil] at h

/-- Two texts, the second of which starts with a sign. -/
theorem Spells.append {as bs : List Char} {ss ts : List Token} (ha : Spells as ss)
    (hb : Spells bs ts) (hstop : Stops bs) : Spells (as ++ bs) (ss ++ ts) := by
  induction ha with
  | nil => exact hb
  | sign ht _ ih => exact .sign ht ih
  | digits n hs _ ih =>
      rw [List.append_assoc]
      exact .digits n (hs.append hstop) ih
  | name hc hw hs _ ih =>
      rw [List.append_assoc]
      exact .name hc hw (hs.append hstop) ih

theorem Spells.joined {as bs : List Char} {ss ts : List Token} {c : Char} {t : Token}
    (ha : Spells as ss) (hb : Spells bs ts) (ht : ofChar? c = some t) :
    Spells (as ++ c :: bs) (ss ++ t :: ts) :=
  ha.append (.sign ht hb) (stops_cons bs ht)

/-- A text behind a minus sign is spelled by the tokens behind that sign. -/
theorem Spells.of_minus {rest : List Char} {ts : List Token} (h : Spells ('-' :: rest) ts) :
    ∃ ts', ts = .minus :: ts' ∧ Spells rest ts' := by
  -- Neither a number nor a name starts with the sign.
  generalize htext : '-' :: rest = text at h
  cases h with
  | nil => exact absurd htext (List.cons_ne_nil _ _)
  | @sign c t cs ts ht h =>
      rw [List.cons.injEq] at htext
      rw [← htext.1] at ht
      have hminus : t = .minus := by
        rw [show ofChar? '-' = some .minus from rfl, Option.some.injEq] at ht
        exact ht.symm
      exact ⟨ts, by rw [hminus], htext.2 ▸ h⟩
  | @digits cs ts n hstop h =>
      -- A number is written with one digit at least.
      rcases hds : Numeral.digits .dec n with _ | ⟨d, ds⟩
      · exact absurd hds (Numeral.digits_ne_nil .dec n)
      rw [hds, List.cons_append, List.cons.injEq] at htext
      have hd := Numeral.accepts_of_mem_digits .dec n d (by rw [hds]; exact List.mem_cons_self)
      rw [← htext.1] at hd
      exact absurd hd (by decide)
  | @name c w cs ts hc hw hstop h =>
      rw [List.cons_append, List.cons.injEq] at htext
      rw [← htext.1] at hc
      exact absurd hc (by decide)

theorem tokenizeFrom_of_spells {cs : List Char} {ts : List Token} (h : Spells cs ts) (pos : Nat) :
    tokenizeFrom pos cs = .ok ts := by
  induction h generalizing pos with
  | nil => rw [tokenizeFrom]
  | @sign c t cs ts ht h ih =>
      have hall : ∀ c ∈ signs, Text.isBlank c = false := Text.forall_of_all (by decide)
      rw [tokenizeFrom, hall c (mem_signs_of_ofChar? ht)]
      simp only [Bool.false_eq_true, if_false, ht, ih, Except.map]
  | digits n hstop h ih => rw [tokenizeFrom_digits pos n hstop, ih, Except.map]
  | name hc hw hstop h ih => rw [tokenizeFrom_name pos hc hw hstop.not_nameChar, ih, Except.map]

theorem tokenize_of_spells {cs : List Char} {ts : List Token} (h : Spells cs ts) :
    tokenize cs = .ok ts :=
  tokenizeFrom_of_spells h 0

end Token

end ExactCalc
