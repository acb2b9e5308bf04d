import ExactCalc.Proofs.Token.Spelling

/-!
# Cutting Texts into Tokens

What a text is cut into in front of another text.

Where a text stands matters to the tokenizer only for the positions in its
errors, so a text that is cut into tokens at one place is cut into them at every
place; `Cut` says so. A text is cut from the front: blanks are skipped, a sign is
a token whatever follows, a name ends where a character of no name follows.

Numbers are taken as they come. Whatever alone is read as one number is read as
that number in front of a sign too, however it is spelled. No run of digits runs
on over a sign; a power of ten could take one in, but only one that lacks its
digits, and alone that is no number.

## Main definitions

* `Cut`: The tokens a text is cut into, wherever it stands.
* `powerOf`, `scaledBy`: What a number is once its sign or its mantissa is known.
* `Begins`: The token that a text begins with.
* `numberThen`: A number, and the tokens of the text behind it.

## Theorems

* `readNumber_append`: A number in front of a sign.
* `begins_of_tokenizes`: A text begins with a blank or with its first token.
* `tokenizeFrom_marked`, `tokenizeFrom_plain`: A text whose first token is a number.
* `Cut.blank`, `Cut.sign`, `Cut.name`, `Cut.number`: A text with one token more in
  front.
-/

namespace ExactCalc

namespace Token

/-- The tokens a text is cut into, wherever it stands. -/
def Cut (cs : List Char) (ts : List Token) : Prop :=
  ∀ pos, tokenizeFrom pos cs = .ok ts

section Numbers

variable {r : Radix} {pos : Nat} {rest : List Char}

/-- A class that holds no sign is not found beyond the place where a text stops. -/
theorem takeWhile_stops {p : Char → Bool} (cs : List Char) (hp : ∀ c ∈ signs, p c = false)
    (hrest : Stops rest) : (cs ++ rest).takeWhile p = cs.takeWhile p := by
  induction cs with
  | nil =>
      rw [List.nil_append, List.takeWhile_nil]
      cases rest with
      | nil => rfl
      | cons c rest =>
          rw [List.takeWhile_cons_of_neg]
          rw [hrest.not_of_class hp c rfl]
          exact Bool.false_ne_true
  | cons c cs ih => rw [List.cons_append, List.takeWhile_cons, List.takeWhile_cons, ih]

/-- What is read of a mantissa does not depend on its place. -/
theorem read_pos {m m' : Mantissa} {cs : List Char} (h : Mantissa.read r pos m cs = .ok m')
    (pos' : Nat) : Mantissa.read r pos' m cs = .ok m' := by
  induction cs generalizing pos pos' m with
  | nil => exact h
  | cons c cs ih =>
      rw [Mantissa.read] at h ⊢
      by_cases hpoint : c = '.'
      · rw [if_pos hpoint] at h ⊢
        by_cases hplaces : m.places.isSome = true
        · rw [if_pos hplaces] at h
          cases h
        · rw [if_neg hplaces] at h ⊢
          exact ih h (pos' + 1)
      rw [if_neg hpoint] at h ⊢
      by_cases hc : r.accepts c = true
      · rw [if_pos hc] at h ⊢
        exact ih h (pos' + 1)
      · rw [if_neg hc] at h
        cases h

/-- The sign of a power of ten, how many characters it takes, and what follows
    it. -/
def splitSign : List Char → Bool × Nat × List Char
  | '-' :: rest => (true, 1, rest)
  | '+' :: rest => (false, 1, rest)
  | rest => (false, 0, rest)

/-- A power of ten by its sign and its digits. -/
def powerOf (pos : Nat) (negative : Bool) (signs : Nat) (ds : List Char) :
    Except EvalError (Int × Nat) :=
  if ds.isEmpty then .error (.unreadable .exponentWithoutDigits (some pos))
  else if Numeral.value 10 ds ≤ largestExponent then
    .ok (if negative then -(Numeral.value 10 ds : Int) else Numeral.value 10 ds, signs + ds.length)
  else .error .tooComplex

theorem readExponent_eq (pos : Nat) (cs : List Char) :
    readExponent pos cs = powerOf pos (splitSign cs).1 (splitSign cs).2.1
      ((splitSign cs).2.2.takeWhile Char.isDigit) := rfl

/-- What follows the first character has no part in the sign. -/
theorem splitSign_append (c : Char) (cs rest : List Char) :
    splitSign (c :: cs ++ rest) =
      ((splitSign (c :: cs)).1, (splitSign (c :: cs)).2.1, (splitSign (c :: cs)).2.2 ++ rest) := by
  by_cases hminus : c = '-'
  · rw [hminus]
    rfl
  by_cases hplus : c = '+'
  · rw [hplus]
    rfl
  have hnone : ∀ ds, splitSign (c :: ds) = (false, 0, c :: ds) := by
    intro ds
    unfold splitSign
    split
    · rename_i heq
      exact absurd (List.cons.inj heq).1 hminus
    · rename_i heq
      exact absurd (List.cons.inj heq).1 hplus
    · rfl
  rw [List.cons_append, hnone, hnone, List.cons_append]

/-- A power of ten has digits, and a sign behind it is none of them. -/
theorem readExponent_append {cs : List Char} {n : Int} {length : Nat}
    (h : readExponent pos cs = .ok (n, length)) (hrest : Stops rest) (pos' : Nat) :
    readExponent pos' (cs ++ rest) = .ok (n, length) := by
  rcases cs with _ | ⟨c, cs⟩
  · cases h
  rw [readExponent_eq] at h ⊢
  rw [splitSign_append, takeWhile_stops _ (Text.forall_of_all (by decide)) hrest]
  unfold powerOf at h ⊢
  split at h
  · cases h
  · rename_i hsome
    rw [if_neg hsome]
    exact h

/-- A number once its mantissa has been read, which has a given value and takes a
    given number of characters: with the power of ten that follows, if one does. -/
def scaledBy (r : Radix) (pos : Nat) (value : Rat) (length : Nat) :
    List Char → Except EvalError (Rat × Nat)
  | c :: rest =>
    if r ≠ .hex ∧ c = exponentLetter then
      (readExponent (pos + length) rest).map fun (n, taken) =>
        (value * Rational.powInt 10 n, length + 1 + taken)
    else .ok (value, length)
  | [] => .ok (value, length)

theorem readNumber_eq (r : Radix) (pos : Nat) (cs : List Char) :
    readNumber r pos cs =
      match Mantissa.read r pos .empty
        (cs.takeWhile fun c => c == '.' || isDigitCandidate r c) with
      | .error e => .error e
      | .ok m =>
        if m.count = 0 then .error (.unreadable .numberWithoutDigits (some pos))
        else scaledBy r pos (m.toRat r)
          (cs.takeWhile fun c => c == '.' || isDigitCandidate r c).length
          (cs.drop (cs.takeWhile fun c => c == '.' || isDigitCandidate r c).length) := by
  unfold readNumber scaledBy
  rfl

/-- A sign takes the characters that it is taken off. -/
theorem length_splitSign (cs : List Char) :
    (splitSign cs).2.1 + (splitSign cs).2.2.length = cs.length := by
  unfold splitSign
  split <;> simp only [List.length_cons] <;> omega

theorem readExponent_le {cs : List Char} {n : Int} {taken : Nat}
    (h : readExponent pos cs = .ok (n, taken)) : taken ≤ cs.length := by
  have hrun := (List.takeWhile_sublist (l := (splitSign cs).2.2) Char.isDigit).length_le
  have hsign := length_splitSign cs
  rw [readExponent_eq, powerOf] at h
  split at h
  · cases h
  split at h
  · rw [Except.ok.injEq, Prod.mk.injEq] at h
    omega
  · cases h

/-- A number takes no more characters than there are. -/
theorem readNumber_le {cs : List Char} {q : Rat} {n : Nat}
    (h : readNumber r pos cs = .ok (q, n)) : n ≤ cs.length := by
  have hle : (cs.takeWhile (fun c => c == '.' || isDigitCandidate r c)).length ≤ cs.length :=
    (List.takeWhile_sublist _).length_le
  rw [readNumber_eq] at h
  generalize cs.takeWhile (fun c => c == '.' || isDigitCandidate r c) = run at h hle
  split at h
  · cases h
  split at h
  · cases h
  rename_i m _ _
  rcases hdrop : cs.drop run.length with _ | ⟨c, tail⟩
  · rw [hdrop, scaledBy, Except.ok.injEq, Prod.mk.injEq] at h
    omega
  have hlength : cs.length - run.length = tail.length + 1 := by
    rw [← List.length_drop, hdrop, List.length_cons]
  rw [hdrop, scaledBy] at h
  split at h
  · rcases hexp : readExponent (pos + run.length) tail with e | ⟨k, taken⟩
    · rw [hexp] at h
      cases h
    · have htaken := readExponent_le hexp
      rw [hexp] at h
      simp only [Except.map, Except.ok.injEq, Prod.mk.injEq] at h
      omega
  · rw [Except.ok.injEq, Prod.mk.injEq] at h
    omega

theorem scaledBy_append {value q : Rat} {length n : Nat} {cs : List Char}
    (h : scaledBy r pos value length cs = .ok (q, n)) (hrest : Stops rest) (pos' : Nat) :
    scaledBy r pos' value length (cs ++ rest) = .ok (q, n) := by
  rcases cs with _ | ⟨c, cs⟩
  · -- The number ends with the text, and a sign is no letter of a power of ten.
    rw [List.nil_append]
    rcases rest with _ | ⟨d, rest⟩
    · exact h
    have hletter : ¬(r ≠ .hex ∧ d = exponentLetter) := by
      rintro ⟨-, hd⟩
      have hsign := hrest d rfl
      rw [hd] at hsign
      exact absurd hsign (by decide)
    rw [scaledBy, if_neg hletter]
    exact h
  rw [List.cons_append, scaledBy]
  rw [scaledBy] at h
  by_cases hletter : r ≠ .hex ∧ c = exponentLetter
  · rw [if_pos hletter] at h ⊢
    rcases hexp : readExponent (pos + length) cs with e | ⟨k, taken⟩
    · rw [hexp] at h
      cases h
    · rw [hexp] at h
      rw [readExponent_append hexp hrest]
      exact h
  · rw [if_neg hletter] at h ⊢
    exact h

/-- A number in front of a sign is read as it is alone. -/
theorem readNumber_append {cs : List Char} {q : Rat} {n : Nat}
    (h : readNumber r pos cs = .ok (q, n)) (hrest : Stops rest) (pos' : Nat) :
    readNumber r pos' (cs ++ rest) = .ok (q, n) := by
  have hrun : (cs ++ rest).takeWhile (fun c => c == '.' || isDigitCandidate r c) =
      cs.takeWhile (fun c => c == '.' || isDigitCandidate r c) := by
    refine takeWhile_stops cs ?_ hrest
    cases r <;> exact Text.forall_of_all (by decide)
  have hle : (cs.takeWhile (fun c => c == '.' || isDigitCandidate r c)).length ≤ cs.length :=
    (List.takeWhile_sublist _).length_le
  rw [readNumber_eq] at h ⊢
  rw [hrun]
  generalize cs.takeWhile (fun c => c == '.' || isDigitCandidate r c) = run at h hle ⊢
  rcases hm : Mantissa.read r pos .empty run with e | m
  · rw [hm] at h
    cases h
  rw [hm] at h
  rw [read_pos hm pos']
  simp only at h ⊢
  by_cases hcount : m.count = 0
  · rw [if_pos hcount] at h
    cases h
  · rw [if_neg hcount] at h ⊢
    rw [List.drop_append_of_le_length hle]
    exact scaledBy_append h hrest pos'

end Numbers

section Texts

variable {pos : Nat} {c : Char} {cs rest : List Char} {ts : List Token}

/-- The token that a text begins with, and the text behind it. -/
inductive Begins (c : Char) (cs : List Char) : Token → List Char → Prop where
  | sign {t : Token} (h : ofChar? c = some t) : Begins c cs t cs
  | marked {r : Radix} {tail : List Char} {pos n : Nat} {q : Rat}
      (htext : c :: cs = r.marker ++ tail) (hread : readNumber r pos tail = .ok (q, n)) :
      Begins c cs (.num q) (tail.drop n)
  | plain {pos n : Nat} {q : Rat} (hmarker : Radix.splitLongMarker? (c :: cs) = none)
      (hc : (c.isDigit || c == '.') = true) (hread : readNumber .dec pos (c :: cs) = .ok (q, n)) :
      Begins c cs (.num q) (cs.drop (n - 1))
  | name : Begins c cs (ofName (c :: cs.takeWhile isNameChar))
      (cs.drop (cs.takeWhile isNameChar).length)

theorem cons_of_map {t : Token} {x : Except EvalError (List Token)}
    (h : x.map (t :: ·) = .ok ts) : ∃ ts', x = .ok ts' ∧ ts = t :: ts' := by
  cases x with
  | error e => cases h
  | ok ts' => exact ⟨ts', rfl, (Except.ok.inj h).symm⟩

/-- A text that is cut into tokens begins with a blank or with the first of
    them. -/
theorem begins_of_tokenizes (h : tokenizeFrom pos (c :: cs) = .ok ts) :
    (Text.isBlank c = true ∧ tokenizeFrom (pos + 1) cs = .ok ts) ∨
      ∃ t tail pos' ts', Begins c cs t tail ∧ tokenizeFrom pos' tail = .ok ts' ∧ ts = t :: ts' := by
  rw [tokenizeFrom] at h
  by_cases hblank : Text.isBlank c = true
  · rw [if_pos hblank] at h
    exact .inl ⟨hblank, h⟩
  rw [if_neg hblank] at h
  refine .inr ?_
  -- The tokenizer's own order: a sign, then a marker, a digit or a point, a name.
  rcases hsign : ofChar? c with _ | t
  · simp only [hsign] at h
    split at h
    · rename_i r tail hmarker
      rcases hread : readNumber r (pos + r.marker.length) tail with e | ⟨q, n⟩
      · rw [hread] at h
        cases h
      · rw [hread] at h
        rcases cons_of_map h with ⟨ts', hrest, hts⟩
        exact ⟨_, _, _, ts', .marked (Radix.splitLongMarker?_eq_some.mp hmarker) hread, hrest, hts⟩
    · rename_i hmarker
      by_cases hdigit : (c.isDigit || c == '.') = true
      · rw [if_pos hdigit] at h
        rcases hread : readNumber .dec pos (c :: cs) with e | ⟨q, n⟩
        · rw [hread] at h
          cases h
        · rw [hread] at h
          rcases cons_of_map h with ⟨ts', hrest, hts⟩
          exact ⟨_, _, _, ts', .plain hmarker hdigit hread, hrest, hts⟩
      rw [if_neg hdigit] at h
      by_cases hname : isNameStart c = true
      · rw [if_pos hname] at h
        rcases cons_of_map h with ⟨ts', hrest, hts⟩
        exact ⟨_, _, _, ts', .name, hrest, hts⟩
      · rw [if_neg hname] at h
        cases h
  · simp only [hsign] at h
    rcases cons_of_map h with ⟨ts', hrest, hts⟩
    exact ⟨_, _, _, ts', .sign hsign, hrest, hts⟩

/-- A number, and the tokens of the text behind as many characters as it takes. -/
def numberThen (number : Except EvalError (Rat × Nat))
    (behind : Nat → Except EvalError (List Token)) : Except EvalError (List Token) :=
  match number with
  | .error e => .error e
  | .ok (q, n) => (behind n).map (.num q :: ·)

theorem numberThen_ok {number : Except EvalError (Rat × Nat)}
    {behind : Nat → Except EvalError (List Token)}
    (h : numberThen number behind = .ok ts) :
    ∃ q n ts', number = .ok (q, n) ∧ behind n = .ok ts' ∧ ts = .num q :: ts' := by
  rcases number with e | ⟨q, n⟩
  · cases h
  · rcases cons_of_map h with ⟨ts', hbehind, hts⟩
    exact ⟨q, n, ts', rfl, hbehind, hts⟩

/-- Behind a marker stands a number of its base. -/
theorem tokenizeFrom_marked (pos : Nat) (r : Radix) (cs : List Char) :
    tokenizeFrom pos (r.marker ++ cs) =
      numberThen (readNumber r (pos + r.marker.length) cs)
        fun n => tokenizeFrom (pos + r.marker.length + n) (cs.drop n) := by
  -- A marker begins with a zero, which is neither a blank nor a sign.
  have hmarker := Radix.splitLongMarker?_eq_some.mpr (Eq.refl (r.marker ++ cs))
  rcases r.marker_eq with ⟨d, -, hr⟩
  rw [hr, List.cons_append] at hmarker
  have hblank : Text.isBlank '0' = false := by decide
  have hopen : tokenizeFrom pos (r.marker ++ cs) = tokenizeFrom pos ('0' :: ([d, ':'] ++ cs)) := by
    rw [hr, List.cons_append]
  rw [hopen, tokenizeFrom, hblank]
  simp only [Bool.false_eq_true, if_false, show ofChar? '0' = none from rfl]
  split
  · rename_i r' tail hsome
    rw [hmarker, Option.some.injEq, Prod.mk.injEq] at hsome
    rw [← hsome.1, ← hsome.2]
    rfl
  · rename_i hnone
    rw [hmarker] at hnone
    cases hnone

/-- Without a marker a digit or a point begins a decimal number. -/
theorem tokenizeFrom_plain (pos : Nat) (hmarker : Radix.splitLongMarker? (c :: cs) = none)
    (hc : (c.isDigit || c == '.') = true) :
    tokenizeFrom pos (c :: cs) =
      numberThen (readNumber .dec pos (c :: cs))
        fun n => tokenizeFrom (pos + n) (cs.drop (n - 1)) := by
  have hfront : Text.isBlank c = false ∧ ofChar? c = none := by
    rw [Bool.or_eq_true, beq_iff_eq] at hc
    rcases hc with hc | rfl
    · have hname := Text.isNameChar_of_isDigit hc
      exact ⟨Text.isBlank_of_isNameChar hname, ofChar?_of_isNameChar hname⟩
    · exact ⟨by decide, rfl⟩
  rw [tokenizeFrom, hfront.1]
  simp only [Bool.false_eq_true, if_false, hfront.2]
  split
  · rename_i hsome
    rw [hmarker] at hsome
    cases hsome
  · simp only [hc, if_true]
    rfl

theorem Cut.nil : Cut [] [] := by
  intro pos
  rw [tokenizeFrom]

theorem Cut.blank (hc : Text.isBlank c = true) (h : Cut cs ts) : Cut (c :: cs) ts := by
  intro pos
  rw [tokenizeFrom, if_pos hc]
  exact h (pos + 1)

theorem Cut.sign {t : Token} (hc : ofChar? c = some t) (h : Cut cs ts) :
    Cut (c :: cs) (t :: ts) := by
  intro pos
  have hall : ∀ c ∈ signs, Text.isBlank c = false := Text.forall_of_all (by decide)
  rw [tokenizeFrom, hall c (mem_signs_of_ofChar? hc)]
  simp only [Bool.false_eq_true, if_false, hc, h (pos + 1), Except.map]

/-- A name is cut where a character follows that belongs to no name. -/
theorem Cut.name {w : List Char} (hc : isNameStart c = true) (hw : ∀ d ∈ w, isNameChar d = true)
    (hrest : ∀ d ∈ rest.head?, isNameChar d = false) (h : Cut rest ts) :
    Cut (c :: w ++ rest) (ofName (c :: w) :: ts) := by
  intro pos
  rw [tokenizeFrom_name pos hc hw hrest, h, Except.map]

/-- A number with the marker of its base. -/
theorem Cut.marked {r : Radix} {q : Rat} {n : Nat} (hread : ∀ pos, readNumber r pos cs = .ok (q, n))
    (h : Cut (cs.drop n) ts) : Cut (r.marker ++ cs) (.num q :: ts) := by
  intro pos
  rw [tokenizeFrom_marked, hread, numberThen, h, Except.map]

/-- A number without a marker. -/
theorem Cut.plain {q : Rat} {n : Nat} (hmarker : Radix.splitLongMarker? (c :: cs) = none)
    (hc : (c.isDigit || c == '.') = true)
    (hread : ∀ pos, readNumber .dec pos (c :: cs) = .ok (q, n)) (h : Cut (cs.drop (n - 1)) ts) :
    Cut (c :: cs) (.num q :: ts) := by
  intro pos
  rw [tokenizeFrom_plain pos hmarker hc, hread, numberThen, h, Except.map]

/-- What is cut into no token in front of a text leaves its tokens as they are. -/
theorem Cut.blanks {bs : List Char} (hbs : tokenizeFrom pos bs = .ok []) (h : Cut cs ts) :
    Cut (bs ++ cs) ts := by
  induction bs generalizing pos with
  | nil => exact h
  | cons b bs ih =>
      rcases begins_of_tokenizes hbs with ⟨hb, hrest⟩ | ⟨t, tail, pos', ts', -, -, hts⟩
      · exact .blank hb (ih hrest)
      · exact absurd hts (List.cons_ne_nil t ts').symm

/-- No marker begins in a text without one and ends in a text that stops. -/
theorem splitLongMarker?_append (h : Radix.splitLongMarker? (c :: cs) = none)
    (hrest : Stops rest) : Radix.splitLongMarker? (c :: (cs ++ rest)) = none := by
  rcases hs : Radix.splitLongMarker? (c :: (cs ++ rest)) with _ | ⟨r, tail⟩
  · rfl
  have htext := Radix.splitLongMarker?_eq_some.mp hs
  rcases r.marker_eq with ⟨d, hd, hr⟩
  rw [hr] at htext
  -- The second and the third character of a marker are no signs.
  rcases cs with _ | ⟨a, _ | ⟨b, cs⟩⟩ <;>
    simp only [List.cons_append, List.nil_append, List.cons.injEq] at htext
  · have hhead : rest.head? = some d := by rw [htext.2, List.head?_cons]
    exact absurd hd (hrest.not_mem d hhead)
  · have hhead : rest.head? = some ':' := by rw [htext.2.2, List.head?_cons]
    exact absurd (hrest ':' hhead) (by decide)
  · have hwhole : c :: a :: b :: cs = r.marker ++ cs := by
      rw [hr, htext.1, htext.2.1, htext.2.2.1]
      rfl
    rw [Radix.splitLongMarker?_eq_some.mpr hwhole] at h
    cases h

theorem ofChar?_ne_num (c : Char) (q : Rat) : ofChar? c ≠ some (.num q) := by
  unfold ofChar?
  split <;> simp

theorem ofName_ne_num (name : List Char) (q : Rat) : ofName name ≠ .num q := by
  unfold ofName
  split <;> simp

/-- What alone is one number is that number in front of a text that stops. -/
theorem Cut.number {t : List Char} {q : Rat} (ht : tokenizeFrom pos t = .ok [.num q])
    (hrest : Stops rest) (h : Cut rest ts) : Cut (t ++ rest) (.num q :: ts) := by
  induction t generalizing pos with
  | nil =>
      rw [tokenizeFrom] at ht
      cases ht
  | cons c cs ih =>
      rcases begins_of_tokenizes ht with ⟨hc, hcs⟩ | ⟨t, tail, pos', ts', hbegins, htail, hts⟩
      · exact .blank hc (ih hcs)
      -- The one token is the number, so nothing but blanks is left of the text behind it.
      rw [List.cons.injEq] at hts
      rcases hts with ⟨hq, rfl⟩
      intro pos
      cases hbegins with
      | sign hsign => exact absurd (hq ▸ hsign) (ofChar?_ne_num c q)
      | name => exact absurd hq.symm (ofName_ne_num _ q)
      | marked htext hread =>
          rw [Token.num.injEq] at hq
          rw [hq, htext, List.append_assoc]
          refine Cut.marked (readNumber_append hread hrest) ?_ pos
          rw [List.drop_append_of_le_length (readNumber_le hread)]
          exact .blanks htail h
      | plain hmarker hc hread =>
          rw [Token.num.injEq] at hq
          have hle := readNumber_le hread
          rw [List.length_cons] at hle
          rw [hq, List.cons_append]
          refine Cut.plain (splitLongMarker?_append hmarker hrest) hc
            (readNumber_append hread hrest) ?_ pos
          rw [List.drop_append_of_le_length (by omega)]
          exact .blanks htail h

end Texts

end Token

end ExactCalc
