import ExactCalc.Proofs.Token.Cut

/-!
# Where a Number Ends

What the reader of numbers takes off the front of a text, and what it leaves.

A number is a run of digits and points and, in a base other than sixteen, perhaps
a power of ten: its letter, a sign or none, and digits. The run is as long as it
can be, and so are the digits behind the letter. Hence what is left of the text
tells by its first character where the number ended: it goes on neither with the
run nor with those digits, and the letter is only left where a power of ten has
been read already.

A colon stands in no token but the marker of a number. So wherever the tokenizer
cuts a text, it cuts it at every marker, and the digits behind each are read in
its base.

## Main definitions

* `inMantissa`: The characters that a mantissa is a run of.
* `Leading`: A number at the front of a text.

## Theorems

* `leading_of_readNumber`: What has been read is a number at the front.
* `tokenizeFrom_decimal`: A number with nothing in front is read as a decimal one.
* `marker_of_colon`: A colon ends the marker of a token.
* `not_tokenizes_refused`: A refused digit behind a marker is not passed over.
-/

namespace ExactCalc

namespace Token

/-- The points and digit candidates that a mantissa is a run of. -/
def inMantissa (r : Radix) (c : Char) : Bool :=
  c == '.' || isDigitCandidate r c

/-- A mantissa: points and digits of the base. -/
structure IsMantissa (r : Radix) (ms : List Char) : Prop where
  ne_nil : ms ≠ []
  made : ∀ c ∈ ms, c = '.' ∨ r.accepts c = true

/-- A number of so many characters at the front of a text: a mantissa alone, or
    with a power of ten. -/
inductive Leading (r : Radix) : List Char → Nat → Prop where
  | mantissa {ms rest : List Char} (hms : IsMantissa r ms)
      (hrest : ∀ c ∈ rest.head?, inMantissa r c = false ∧ (r ≠ .hex → c ≠ exponentLetter)) :
      Leading r (ms ++ rest) ms.length
  | power {ms sign es rest : List Char} (hr : r ≠ .hex) (hms : IsMantissa r ms)
      (hsign : sign ∈ [[], ['+'], ['-']]) (hne : es ≠ []) (hes : ∀ c ∈ es, c.isDigit = true)
      (hrest : ∀ c ∈ rest.head?, c.isDigit = false) :
      Leading r (ms ++ exponentLetter :: (sign ++ es) ++ rest)
        (ms ++ exponentLetter :: (sign ++ es)).length

section Reading

variable {r : Radix} {pos n : Nat} {c : Char} {cs : List Char} {q : Rat}

/-- A mantissa that has been read holds points and digits of its base. -/
theorem accepts_of_read {m m' : Mantissa} (h : Mantissa.read r pos m cs = .ok m') :
    ∀ c ∈ cs, c = '.' ∨ r.accepts c = true := by
  induction cs generalizing pos m with
  | nil => exact fun c hc => absurd hc List.not_mem_nil
  | cons d cs ih =>
      rw [Mantissa.read] at h
      by_cases hpoint : d = '.'
      · rw [if_pos hpoint] at h
        split at h
        · cases h
        · exact List.forall_mem_cons.mpr ⟨.inl hpoint, ih h⟩
      rw [if_neg hpoint] at h
      by_cases hd : r.accepts d = true
      · rw [if_pos hd] at h
        exact List.forall_mem_cons.mpr ⟨.inr hd, ih h⟩
      · rw [if_neg hd] at h
        cases h

theorem head?_dropWhile (p : Char → Bool) (cs : List Char) :
    ∀ c ∈ (cs.dropWhile p).head?, p c = false := by
  intro c hc
  have h := List.head?_dropWhile_not p cs
  rw [Option.mem_def.mp hc] at h
  exact h

theorem splitSign_eq (cs : List Char) : ∃ sign ∈ [[], ['+'], ['-']],
    cs = sign ++ (splitSign cs).2.2 ∧ (splitSign cs).2.1 = sign.length := by
  unfold splitSign
  split
  · exact ⟨['-'], by decide, rfl, rfl⟩
  · exact ⟨['+'], by decide, rfl, rfl⟩
  · exact ⟨[], by decide, rfl, rfl⟩

/-- A power of ten is a sign or none, and all the digits there are. -/
theorem readExponent_ok {k : Int} (h : readExponent pos cs = .ok (k, n)) :
    ∃ sign ∈ [[], ['+'], ['-']], ∃ es rest, cs = sign ++ (es ++ rest) ∧
      n = sign.length + es.length ∧ es ≠ [] ∧ (∀ c ∈ es, c.isDigit = true) ∧
      ∀ c ∈ rest.head?, c.isDigit = false := by
  rcases splitSign_eq cs with ⟨sign, hsign, hcs, hlength⟩
  refine ⟨sign, hsign, (splitSign cs).2.2.takeWhile Char.isDigit,
    (splitSign cs).2.2.dropWhile Char.isDigit, ?_, ?_, ?_, ?_, head?_dropWhile _ _⟩
  · rw [List.takeWhile_append_dropWhile]
    exact hcs
  · rw [readExponent_eq, powerOf, hlength] at h
    split at h
    · cases h
    split at h
    · rw [Except.ok.injEq, Prod.mk.injEq] at h
      exact h.2.symm
    · cases h
  · intro hnil
    rw [readExponent_eq, powerOf, hnil, List.isEmpty_nil, if_pos rfl] at h
    cases h
  · exact List.all_eq_true.mp List.all_takeWhile

/-- Behind a mantissa a number ends, or goes on with its power of ten. -/
theorem leading_of_scaledBy {ms rest : List Char} {value : Rat} (hms : IsMantissa r ms)
    (hstop : ∀ c ∈ rest.head?, inMantissa r c = false)
    (h : scaledBy r pos value ms.length rest = .ok (q, n)) : Leading r (ms ++ rest) n := by
  rcases rest with _ | ⟨c, rest⟩
  · rw [scaledBy, Except.ok.injEq, Prod.mk.injEq] at h
    rw [← h.2]
    exact .mantissa hms (fun c hc => absurd hc (Option.not_mem_none c))
  rw [scaledBy] at h
  by_cases hletter : r ≠ .hex ∧ c = exponentLetter
  · rw [if_pos hletter] at h
    rcases hexp : readExponent (pos + ms.length) rest with e | ⟨k, taken⟩
    · rw [hexp] at h
      cases h
    rw [hexp] at h
    simp only [Except.map, Except.ok.injEq, Prod.mk.injEq] at h
    rcases readExponent_ok hexp with ⟨sign, hsign, es, tail, rfl, htaken, hne, hes, htail⟩
    have hpower := Leading.power hletter.1 hms hsign hne hes htail
    rw [List.append_assoc, List.cons_append, List.append_assoc, List.length_append,
      List.length_cons, List.length_append] at hpower
    rw [← h.2, htaken, hletter.2, Nat.add_assoc, Nat.add_comm 1]
    exact hpower
  · rw [if_neg hletter, Except.ok.injEq, Prod.mk.injEq] at h
    rw [← h.2]
    refine .mantissa hms (fun d hd => ⟨hstop d hd, fun hr hd' => hletter ⟨hr, ?_⟩⟩)
    rw [List.head?_cons, Option.mem_some_iff] at hd
    rw [hd, hd']

/-- What has been read is a number at the front of the text. -/
theorem leading_of_readNumber (h : readNumber r pos cs = .ok (q, n)) : Leading r cs n := by
  have hcs : cs.takeWhile (inMantissa r) ++ cs.dropWhile (inMantissa r) = cs :=
    List.takeWhile_append_dropWhile
  have hstop := head?_dropWhile (inMantissa r) cs
  rw [readNumber_eq] at h
  rw [show (fun c => c == '.' || isDigitCandidate r c) = inMantissa r from rfl] at h
  generalize cs.takeWhile (inMantissa r) = ms at h hcs
  generalize cs.dropWhile (inMantissa r) = rest at hcs hstop
  rw [← hcs, List.drop_left] at h
  rw [← hcs]
  rcases hm : Mantissa.read r pos .empty ms with e | m
  · rw [hm] at h
    cases h
  rw [hm] at h
  simp only at h
  split at h
  · cases h
  · rename_i hcount
    refine leading_of_scaledBy ⟨fun hnil => ?_, accepts_of_read hm⟩ hstop h
    -- An empty mantissa has no digits to count.
    rw [hnil, Mantissa.read, Except.ok.injEq] at hm
    exact hcount (hm ▸ rfl)

theorem pos_of_leading (h : Leading r cs n) : 0 < n := by
  cases h with
  | mantissa hms => exact List.length_pos_iff.mpr hms.ne_nil
  | power =>
      rw [List.length_append, List.length_cons]
      omega

/-- Without a marker a digit or a point begins a decimal number, and what is left
    behind it is cut further. -/
theorem tokenizeFrom_decimal (pos : Nat) (hmarker : Radix.splitLongMarker? (c :: cs) = none)
    (hc : (c.isDigit || c == '.') = true) :
    tokenizeFrom pos (c :: cs) =
      numberThen (readNumber .dec pos (c :: cs))
        fun n => tokenizeFrom (pos + n) ((c :: cs).drop n) := by
  rw [tokenizeFrom_plain pos hmarker hc]
  rcases hread : readNumber .dec pos (c :: cs) with e | ⟨q, n⟩
  · rfl
  · -- The number takes one character at least, which is the first.
    rcases Nat.exists_eq_add_one.mpr (pos_of_leading (leading_of_readNumber hread)) with ⟨m, rfl⟩
    rfl

end Reading

section Markers

variable {r : Radix} {pos n : Nat} {c : Char} {cs xs ys : List Char} {ts : List Token}

/-- A number begins with all the points and digits there are. -/
theorem mantissa_of_leading (h : Leading r cs n) : ∃ ms rest, cs = ms ++ rest ∧ IsMantissa r ms ∧
    ∀ c ∈ rest.head?, inMantissa r c = false := by
  cases h with
  | mantissa hms hrest => exact ⟨_, _, rfl, hms, fun c hc => (hrest c hc).1⟩
  | @power ms sign es rest hr hms =>
      refine ⟨ms, exponentLetter :: (sign ++ es ++ rest), ?_, hms, fun c hc => ?_⟩
      · rw [List.append_assoc, List.cons_append]
      · rw [List.head?_cons, Option.mem_some_iff] at hc
        rw [← hc]
        cases r with
        | hex => exact absurd rfl hr
        | bin | oct | dec => decide

/-- A digit that the base refuses makes no number, wherever it stands among points
    and digits. -/
theorem not_leading_refused {ds : List Char} (hds : ∀ d ∈ ds, inMantissa r d = true)
    (hc : c.isDigit = true) (hrefused : r.accepts c = false) : ¬Leading r (ds ++ c :: cs) n := by
  intro h
  rcases mantissa_of_leading h with ⟨ms, rest, heq, hms, hrest⟩
  have hin : inMantissa r c = true := by
    rw [inMantissa, isDigitCandidate, hc, Bool.true_or, Bool.or_true]
  -- The mantissa ends at no character that belongs to one, so it holds the digit.
  have hmem : c ∈ ms := by
    rcases List.append_eq_append_iff.mp heq with ⟨as, rfl, hcs⟩ | ⟨as, rfl, rfl⟩
    · rcases as with _ | ⟨a, as⟩
      · have hstop := hrest c (by rw [← List.nil_append rest, ← hcs]; rfl)
        exact absurd (hstop.symm.trans hin) (by decide)
      · rw [List.cons_append, List.cons.injEq] at hcs
        rw [hcs.1]
        exact List.mem_append_right _ List.mem_cons_self
    · rcases as with _ | ⟨a, as⟩
      · exact absurd ((hrest c rfl).symm.trans hin) (by decide)
      · have ha := hds a (List.mem_append_right _ List.mem_cons_self)
        exact absurd ((hrest a rfl).symm.trans ha) (by decide)
  rcases hms.made c hmem with hpoint | haccepts
  · rw [hpoint] at hc
    exact absurd hc (by decide)
  · exact absurd (haccepts.symm.trans hrefused) (by decide)

/-- No number takes a colon in. -/
theorem not_mem_number {cs : List Char} (h : Leading r cs n) : ':' ∉ cs.take n := by
  have hmantissa : ∀ ms, IsMantissa r ms → ':' ∉ ms := by
    intro ms hms hmem
    rcases hms.made _ hmem with h | h
    · exact absurd h (by decide)
    · cases r <;> exact absurd h (by decide)
  cases h with
  | mantissa hms =>
      rw [List.take_left]
      exact hmantissa _ hms
  | @power _ sign es _ _ hms hsign _ hes =>
      have hsigns : ∀ sign ∈ [[], ['+'], ['-']], ':' ∉ sign := by decide
      rw [List.take_left, List.mem_append, List.mem_cons, List.mem_append]
      rintro (hmem | hmem | hmem | hmem)
      · exact hmantissa _ hms hmem
      · exact absurd hmem (by decide)
      · exact hsigns sign hsign hmem
      · exact absurd (hes _ hmem) (by decide)

theorem leading_colon (h : Leading r (xs ++ ':' :: ys) n) : n ≤ xs.length := by
  rw [← Nat.not_lt]
  intro hlt
  refine not_mem_number h ?_
  have hn : n = xs.length + (n - xs.length - 1 + 1) := by omega
  rw [hn, List.take_length_add_append, List.take_succ_cons]
  exact List.mem_append_right _ List.mem_cons_self

/-- A class is left at a character that does not belong to it, at the latest. -/
theorem length_takeWhile_le {p : Char → Bool} (xs ys : List Char) (hc : p c = false) :
    ((xs ++ c :: ys).takeWhile p).length ≤ xs.length := by
  induction xs with
  | nil =>
      have hnil : (c :: ys).takeWhile p = [] :=
        List.takeWhile_cons_of_neg (by rw [hc]; exact Bool.false_ne_true)
      exact Nat.le_of_eq (congrArg List.length hnil)
  | cons x xs ih =>
      rw [List.cons_append, List.takeWhile_cons]
      split
      · exact Nat.succ_le_succ ih
      · exact Nat.zero_le _

/-- No token begins with a colon. -/
theorem not_tokenizes_colon : tokenizeFrom pos (':' :: ys) ≠ .ok ts := by
  have hmarker : Radix.splitLongMarker? (':' :: ys) = none := by
    rcases hs : Radix.splitLongMarker? (':' :: ys) with _ | ⟨r, tail⟩
    · rfl
    have htext := Radix.splitLongMarker?_eq_some.mp hs
    rcases r.marker_eq with ⟨d, -, hr⟩
    rw [hr, List.cons_append, List.cons.injEq] at htext
    exact absurd htext.1 (by decide)
  have hblank : Text.isBlank ':' = false := by decide
  have hplain : (Char.isDigit ':' || ':' == '.') = false := by decide
  have hname : isNameStart ':' = false := by decide
  rw [tokenizeFrom, hblank]
  simp only [Bool.false_eq_true, if_false, show ofChar? ':' = none from rfl]
  split
  · rename_i hsome
    rw [hmarker] at hsome
    cases hsome
  · simp only [hplain, hname, Bool.false_eq_true, if_false, ne_eq, reduceCtorEq, not_false_eq_true]

/-- A colon behind the start of a marker ends it, or stands behind it. -/
theorem colon_of_marker {tail : List Char} (h : xs ++ ':' :: ys = r.marker ++ tail) :
    (xs ++ [':'] = r.marker ∧ tail = ys) ∨ ∃ zs, xs = r.marker ++ zs ∧ tail = zs ++ ':' :: ys := by
  rcases r.marker_eq with ⟨d, hd, hr⟩
  rw [hr] at h ⊢
  -- No character of a marker but the third is a colon.
  rcases xs with _ | ⟨x, _ | ⟨y, _ | ⟨z, zs⟩⟩⟩
  · exact absurd (List.cons.inj h).1 (by decide)
  · rw [← (List.cons.inj (List.cons.inj h).2).1] at hd
    exact absurd hd (by decide)
  · simp only [List.cons_append, List.nil_append, List.cons.injEq] at h
    rcases h with ⟨rfl, rfl, -, rfl⟩
    exact .inl ⟨rfl, rfl⟩
  · simp only [List.cons_append, List.nil_append, List.cons.injEq] at h
    rcases h with ⟨rfl, rfl, rfl, rfl⟩
    exact .inr ⟨zs, rfl, rfl⟩

/-- A colon in a text that is cut into tokens ends the marker of one of them. -/
theorem marker_of_colon (h : tokenizeFrom pos (xs ++ ':' :: ys) = .ok ts) :
    ∃ zs r pos' q n, xs ++ [':'] = zs ++ Radix.marker r ∧ readNumber r pos' ys = .ok (q, n) := by
  -- The induction is on what stands before the colon; every token takes some of it.
  generalize hlen : xs.length = len
  induction len using Nat.strongRecOn generalizing xs pos ts with
  | ind len ih =>
      rcases xs with _ | ⟨c, xs⟩
      · exact absurd h not_tokenizes_colon
      have hskip : ∀ {k pos' ts'}, k ≤ xs.length →
          tokenizeFrom pos' ((xs ++ ':' :: ys).drop k) = .ok ts' →
          ∃ zs r pos' q n, c :: xs ++ [':'] = zs ++ Radix.marker r ∧
            readNumber r pos' ys = .ok (q, n) := by
        intro k pos' ts' hk htail
        rw [List.drop_append_of_le_length hk] at htail
        have hlt : (xs.drop k).length < len := by
          rw [← hlen, List.length_cons, List.length_drop]
          omega
        rcases ih _ hlt htail rfl with ⟨zs, r, pos'', q, n, heq, hread⟩
        refine ⟨c :: xs.take k ++ zs, r, pos'', q, n, ?_, hread⟩
        rw [List.append_assoc, ← heq, ← List.append_assoc]
        show c :: (xs ++ [':']) = c :: (xs.take k ++ xs.drop k ++ [':'])
        rw [List.take_append_drop]
      rw [List.cons_append] at h
      rcases begins_of_tokenizes h with ⟨-, hrest⟩ | ⟨t, tail, pos', ts', hbegins, htail, -⟩
      · exact hskip (Nat.zero_le _) hrest
      cases hbegins with
      | sign => exact hskip (Nat.zero_le _) htail
      | name =>
          -- A name ends before the colon.
          exact hskip (length_takeWhile_le xs ys (by decide)) htail
      | plain hmarker hc hread =>
          have hfront : Leading .dec ((c :: xs) ++ ':' :: ys) _ := leading_of_readNumber hread
          have hle := leading_colon hfront
          rw [List.length_cons] at hle
          exact hskip (by omega) htail
      | @marked r tail pos n q htext hread =>
          have htext' : (c :: xs) ++ ':' :: ys = r.marker ++ tail := htext
          rcases colon_of_marker htext' with ⟨hmarker, rfl⟩ | ⟨zs, hzs, rfl⟩
          · exact ⟨[], r, pos, q, n, hmarker, hread⟩
          · rcases r.marker_eq with ⟨d, -, hr⟩
            rw [hr] at hzs
            rcases List.cons.inj hzs with ⟨rfl, rfl⟩
            have hle := leading_colon (leading_of_readNumber hread)
            exact hskip (k := n + 2) (Nat.add_le_add_right hle 2) htail

/-- No text is cut into tokens that holds a marker and behind it, among points and
    digits, a digit that its base refuses. -/
theorem not_tokenizes_refused {as ds : List Char} (hds : ∀ d ∈ ds, inMantissa r d = true)
    (hc : c.isDigit = true) (hrefused : r.accepts c = false) :
    tokenizeFrom pos (as ++ (r.marker ++ (ds ++ c :: cs))) ≠ .ok ts := by
  intro h
  rcases r.marker_eq with ⟨d, -, hr⟩
  have htext :
      as ++ (r.marker ++ (ds ++ c :: cs)) = (as ++ ['0', d]) ++ ':' :: (ds ++ c :: cs) := by
    rw [hr, List.append_assoc]
    rfl
  rw [htext] at h
  rcases marker_of_colon h with ⟨zs, r', pos', q, n, heq, hread⟩
  -- Two markers that end with the same colon are one.
  have hsame : r'.marker = r.marker := by
    have hlength : r.marker.length = r'.marker.length := by cases r <;> cases r' <;> rfl
    have happend : as ++ r.marker = zs ++ r'.marker := by
      rw [← heq, hr, List.append_assoc]
      rfl
    exact (List.append_inj_right' happend hlength).symm
  have hradix := congrArg Radix.ofMarker? hsame
  rw [Radix.ofMarker?_marker, Radix.ofMarker?_marker, Option.some.injEq] at hradix
  rw [hradix] at hread
  exact not_leading_refused hds hc hrefused (leading_of_readNumber hread)

end Markers

end Token

end ExactCalc
