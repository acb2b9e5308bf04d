import ExactCalc.Proofs.Prepared.Row
import ExactCalc.Proofs.Token.Number
import Mathlib.Data.List.Basic

/-!
# Literals Read Back

What the tokenizer makes of a literal that was typed.

The builder of literals and the reader of numbers decide apart from each other
where a number ends. The builder looks one character back: a digit of the base or
a point always goes on with a literal, the letter of a power of ten wherever a
digit or a point precedes it. The reader knows one mantissa and one power of ten,
whose digits are the last of the number. So the two agree, unless something other
than digits follows the power of ten. It can only be a point or another letter,
and there the reader ends the number and begins the next token.

A literal may also begin with the letter, behind a digit that the base of the
session refuses. No number begins so, and the reader reports it.

## Main definitions

* `Literal.overruns`: Something other than digits follows the power of ten.
* `Builder.Headless`, `Builder.Kept`, `Gathered`: What holds while a text is read.
* `Collected`: What a literal that has been closed looks like.

## Theorems

* `kept_accept`: What one lexeme makes of a builder.
* `readText_induction`: What every lexeme keeps holds of a whole text.
* `leading_chained`: Where the number ends in a literal.
* `tokenize_literal`: A literal is one number exactly if nothing overruns.
-/

namespace ExactCalc

namespace Literal

/-- What stands behind the first letter of a power of ten. -/
def behindLetter (ds : List Char) : List Char :=
  (ds.dropWhile (· != exponentLetter)).tail

/-- Something other than digits and their sign follows the power of ten. -/
def overruns (l : Literal) : Bool :=
  l.radix != .hex && (behindLetter l.digits).any fun c => c == '.' || c == exponentLetter

/-- All the literals of a text, in order. -/
def Readings.literals (rs : Readings) : List Literal :=
  rs.readings.filterMap (·.outcome.closed) ++ rs.last.toList

/-- A literal that begins with the letter of a power of ten. -/
structure Builder.Headless (session : Radix) (b : Builder) (body : List Char) : Prop where
  built : b = ⟨session, session, some body, false⟩
  session_ne_dec : session ≠ .dec
  session_ne_hex : session ≠ .hex
  head : (body.filter (!Numeral.isSeparator ·)).head? = some exponentLetter

/-- What holds of a builder while a text is read, given the character before and
    the text to come. -/
structure Builder.Kept (session : Radix) (prev : Option Char) (cs : List Char) (b : Builder) :
    Prop where
  fresh : b.current = none → b = .new session
  mantissa : b.current = none → Lexeme.endsMantissa prev = true →
    (∃ d, prev = some d ∧ d.isDigit = true ∧ session.accepts d = false) ∨
      ∀ c ∈ cs.head?, isNameChar c = false
  typing : ∀ body, b.current = some body →
    b.Typing session prev body ∨ b.Headless session body
  filled : ∀ body, b.current = some body → b.explicit = false →
    body.filter (!Numeral.isSeparator ·) ≠ []

/-- What a literal that has been closed looks like. -/
inductive Collected (l : Literal) : Prop where
  | spelled (hfilled : l.explicit = false → l.digits ≠ [])
      (hspelled : Chained (Fits l.radix) none l.digits) : Collected l
  | headless (hdec : l.radix ≠ .dec) (hhex : l.radix ≠ .hex)
      (head : l.digits.head? = some exponentLetter) : Collected l

section Keeping

open Preparation (absorb_of_ne_marker typing_of_new typing_of_continues)

variable {session : Radix} {prev : Option Char} {c : Char} {cs : List Char} {b : Builder}
  {kind : Lexeme.Kind} {n pos : Nat}

/-- With no literal open, no power of ten is begun, unless behind a digit that the
    session refuses. -/
theorem kept_new (h : Lexeme.endsMantissa prev = true →
    (∃ d, prev = some d ∧ d.isDigit = true ∧ session.accepts d = false) ∨
      ∀ c ∈ cs.head?, isNameChar c = false) : (Builder.new session).Kept session prev cs where
  fresh _ := rfl
  mantissa _ := h
  typing _ h := nomatch h
  filled _ h := nomatch h

/-- While a literal is open, nothing depends on the text to come. -/
theorem kept_of_open {body : List Char} (hcurrent : b.current = some body)
    (htyping : b.Typing session prev body ∨ b.Headless session body)
    (hfilled : b.explicit = false → body.filter (!Numeral.isSeparator ·) ≠ []) :
    b.Kept session prev cs := by
  have hopen : b.current ≠ none := by
    rw [hcurrent]
    simp
  refine ⟨fun h => absurd h hopen, fun h => absurd h hopen, fun other hother => ?_,
    fun other hother => ?_⟩
  · rw [hcurrent, Option.some.injEq] at hother
    exact hother ▸ htyping
  · rw [hcurrent, Option.some.injEq] at hother
    exact hother ▸ hfilled

theorem collected_of_finish (h : b.Kept session prev cs) {l : Literal}
    (hl : b.finish.1 = some l) : Collected l := by
  rcases hcurrent : b.current with _ | body
  · rw [Builder.finish_of_current_eq_none hcurrent] at hl
    cases hl
  rw [Builder.finish_of_current_eq_some hcurrent, Option.some.injEq] at hl
  rw [← hl]
  rcases h.typing body hcurrent with htyping | hheadless
  · exact .spelled (h.filled body hcurrent) htyping.spelled
  · rcases hheadless with ⟨hbuilt, hdec, hhex, hhead⟩
    rw [hbuilt]
    exact .headless hdec hhex hhead

theorem finish_of_kept (h : b.Kept session prev cs) : b.finish.2 = .new session := by
  rcases hcurrent : b.current with _ | body
  · rw [Builder.finish_of_current_eq_none hcurrent]
    exact h.fresh hcurrent
  · rw [Builder.finish_of_current_eq_some hcurrent]
    rcases h.typing body hcurrent with htyping | hheadless
    · rw [htyping.base]
    · rw [hheadless.built]

/-- What opens a literal, the letter of a power of ten apart. -/
theorem kept_opened (hkind : kind ≠ .exponent) {hex : Bool}
    (hrec : Lexeme.Recognised prev hex c cs kind n)
    (hgoes : (Builder.new session).canContinue ⟨kind, c :: cs.take n, pos⟩ = true) :
    ((Builder.new session).absorb ⟨kind, c :: cs.take n, pos⟩).Kept session
      (c :: cs.take n).getLast? (cs.drop n) := by
  rcases typing_of_new hkind hrec hgoes with ⟨body, hbody, htyping⟩
  refine kept_of_open hbody (.inl htyping) (fun hexplicit => ?_)
  have hsession := htyping.implicit hexplicit
  -- Only a marker opens an empty literal, and it is noted.
  by_cases hmarker : kind = .marker
  · rw [Builder.absorb, if_pos hmarker] at hexplicit
    exact absurd hexplicit (by simp only [Bool.true_eq_false, not_false_eq_true])
  rw [absorb_of_ne_marker hmarker, Option.some.injEq] at hbody
  have hsep : Numeral.isSeparator c = false := by
    rw [Builder.canContinue_eq, Builder.takesSign_of_current_eq_none rfl, Bool.or_false,
      Builder.goesOn] at hgoes
    cases hrec with
    | marker => exact absurd rfl hmarker
    | point hc => rw [hc]; decide
    | digit => exact Radix.isSeparator_of_accepts hgoes
    | exponent => exact absurd rfl hkind
    | _ => exact absurd hgoes Bool.false_ne_true
  have hone : body = c :: cs.take n := hbody.symm
  rw [hone, List.filter_cons_of_pos (by rw [hsep]; rfl)]
  exact List.cons_ne_nil _ _

/-- What goes on with an open literal. -/
theorem kept_continued {body : List Char} (h : b.Kept session prev (c :: cs))
    (hcurrent : b.current = some body) (hrec : Lexeme.Recognised prev b.isHex c cs kind n)
    (hgoes : b.canContinue ⟨kind, c :: cs.take n, pos⟩ = true) :
    (b.absorb ⟨kind, c :: cs.take n, pos⟩).Kept session (c :: cs.take n).getLast? (cs.drop n) := by
  have hmarker : kind ≠ .marker := by
    rintro rfl
    have hnone := Builder.current_of_marker rfl (hrec.marker_length rfl).1 hgoes
    rw [hcurrent] at hnone
    cases hnone
  have habsorb : b.absorb ⟨kind, c :: cs.take n, pos⟩ =
      { b with current := some (body ++ c :: cs.take n) } := by
    rw [absorb_of_ne_marker hmarker, hcurrent, Option.getD_some]
  have hbody : (b.absorb ⟨kind, c :: cs.take n, pos⟩).current = some (body ++ c :: cs.take n) := by
    rw [habsorb]
  refine kept_of_open hbody ?_ (fun hexplicit => ?_)
  · rcases h.typing body hcurrent with htyping | hheadless
    · rcases typing_of_continues (p := ⟨b, 0, .empty⟩) hcurrent htyping hrec hgoes with
        ⟨body', hbody', htyping'⟩
      rw [hbody, Option.some.injEq] at hbody'
      exact .inl (hbody' ▸ htyping')
    · rcases hheadless with ⟨hbuilt, hdec, hhex, hhead⟩
      refine .inr ⟨by rw [habsorb, hbuilt], hdec, hhex, ?_⟩
      rw [List.filter_append, List.head?_append, hhead, Option.some_or]
  · rw [habsorb] at hexplicit
    rw [List.filter_append]
    exact List.append_ne_nil_of_left_ne_nil (h.filled body hcurrent hexplicit) _

/-- The letter of a power of ten opens a literal only behind a refused digit. -/
theorem kept_headless (h : b.Kept session prev (c :: cs)) (hcurrent : b.current = none)
    (hrec : Lexeme.Recognised prev b.isHex c cs .exponent n) :
    (b.absorb ⟨.exponent, c :: cs.take n, pos⟩).Kept session (c :: cs.take n).getLast?
      (cs.drop n) := by
  cases hrec with
  | exponent _ hc hprev =>
      rcases h.mantissa hcurrent hprev with ⟨d, -, hd, hrefused⟩ | hname
      · have hradix := Radix.refuses_isDigit hd hrefused
        rw [h.fresh hcurrent, hc, List.take_zero]
        have hopen : ((Builder.new session).absorb ⟨.exponent, [exponentLetter], pos⟩).current =
            some [exponentLetter] := rfl
        refine kept_of_open hopen ?_ (fun _ => by decide)
        exact .inr ⟨rfl, hradix.1, hradix.2, by decide⟩
      · have hchar := hname c rfl
        rw [hc] at hchar
        exact absurd hchar (by decide)

/-- What is left alone, with no literal open. -/
theorem kept_passed (hrec : Lexeme.Recognised prev b.isHex c cs kind n)
    (hnext : (Builder.new session).canContinue ⟨kind, c :: cs.take n, pos⟩ = false)
    (hgoes : b.canContinue ⟨kind, c :: cs.take n, pos⟩ = false) :
    (Builder.new session).Kept session (c :: cs.take n).getLast? (cs.drop n) := by
  refine kept_new (fun hlast => ?_)
  rw [Builder.canContinue_eq, Bool.or_eq_false_iff] at hnext hgoes
  cases hrec with
  | marker =>
      have hfalse : true = false := hnext.1
      exact absurd hfalse (by decide)
  | point | exponent =>
      have hfalse : true = false := hgoes.1
      exact absurd hfalse (by decide)
  | separator hsep =>
      have hnone := endsMantissa_not_separator (c := c) hlast
      exact absurd (hnone.symm.trans hsep) (by decide)
  | digit hc =>
      -- A letter that is a digit ends no mantissa.
      refine .inl ⟨c, rfl, ?_, hnext.1⟩
      have hdigit : (c.isDigit || c == '.') = true := hlast
      rw [Bool.or_eq_true, beq_iff_eq] at hdigit
      rcases hdigit with hdigit | rfl
      · exact hdigit
      · rcases hc with hc | ⟨-, hc⟩ <;> exact absurd hc (by decide)
  | operator hc =>
      have hall : ∀ c ∈ Lexeme.operatorSigns, Lexeme.endsMantissa (some c) = false :=
        Text.forall_of_all (by decide)
      exact absurd (hlast.symm.trans (hall c hc)) (by decide)
  | opening hc | closing hc =>
      rw [List.take_zero] at hlast
      rcases hc with rfl | rfl <;> exact absurd hlast (by decide)
  | root hc | circle hc =>
      rw [List.take_zero, hc] at hlast
      exact absurd hlast (by decide)
  | called n hc =>
      have hall : ∀ name ∈ functionNames, Lexeme.endsMantissa name.getLast? = false := by decide
      rw [hall _ hc] at hlast
      exact absurd hlast Bool.false_ne_true
  | name =>
      rw [Preparation.drop_takeWhile]
      exact .inr (Lexeme.stops_dropWhile cs)

/-- What one lexeme makes of a builder, and of the literal it closes. -/
theorem kept_accept (pos : Nat) (h : b.Kept session prev (c :: cs))
    (hrec : Lexeme.Recognised prev b.isHex c cs kind n) :
    (b.accept ⟨kind, c :: cs.take n, pos⟩).2.Kept session (c :: cs.take n).getLast? (cs.drop n) ∧
      ∀ l, (b.accept ⟨kind, c :: cs.take n, pos⟩).1.closed = some l → Collected l := by
  unfold Builder.accept
  by_cases hgoes : b.canContinue ⟨kind, c :: cs.take n, pos⟩ = true
  · rw [if_pos hgoes]
    refine ⟨?_, fun l hl => (nomatch hl)⟩
    rcases hcurrent : b.current with _ | body
    · have hnew := h.fresh hcurrent
      by_cases hkind : kind = .exponent
      · subst hkind
        exact kept_headless h hcurrent hrec
      · rw [hnew] at hgoes ⊢
        exact kept_opened hkind hrec hgoes
    · exact kept_continued h hcurrent hrec hgoes
  · rw [if_neg hgoes]
    simp only
    have hnew := finish_of_kept h
    by_cases hnext : b.finish.2.canContinue ⟨kind, c :: cs.take n, pos⟩ = true
    · rw [if_pos hnext]
      rw [hnew] at hnext ⊢
      refine ⟨kept_opened ?_ hrec hnext, fun l hl => collected_of_finish h hl⟩
      rintro rfl
      rw [Builder.canContinue_eq, Builder.goesOn, Bool.true_or] at hgoes
      exact hgoes rfl
    · rw [if_neg hnext]
      rw [Bool.not_eq_true] at hgoes hnext
      rw [hnew] at hnext ⊢
      exact ⟨kept_passed hrec hnext hgoes, fun l hl => collected_of_finish h hl⟩

end Keeping

section Gathering

variable {session : Radix} {text : List Char} {l : Literal}

/-- One lexeme more of a text, beside what a builder makes of it. -/
def gather (s : List Reading × Builder) (l : Lexeme) :
    Except ((List Reading × Builder) × Nat) (List Reading × Builder) :=
  .ok (⟨l, (s.2.accept l).1⟩ :: s.1, (s.2.accept l).2)

theorem readText_of_ok {session : Radix} {text : List Char} {s : List Reading × Builder}
    (h : Lexeme.scan (·.2.isHex) gather (fun s pos _ => (s, pos)) none 0 text
      ([], Builder.new session) = .ok s) :
    readText session text = ⟨s.1.reverse, none, s.2.finish.1⟩ := by
  simp only [readText]
  split
  next hok => cases hok.symm.trans h; rfl
  next herror => cases herror.symm.trans h

theorem readText_of_error {session : Radix} {text : List Char}
    {e : (List Reading × Builder) × Nat}
    (h : Lexeme.scan (·.2.isHex) gather (fun s pos _ => (s, pos)) none 0 text
      ([], Builder.new session) = .error e) :
    readText session text = ⟨e.1.1.reverse, some e.2, e.1.2.finish.1⟩ := by
  simp only [readText]
  split
  next hok => cases hok.symm.trans h
  next herror => cases herror.symm.trans h; rfl

/-- What has been made of a text so far, given the character before and the text to
    come. -/
structure Gathered (session : Radix) (prev : Option Char) (cs : List Char)
    (s : List Reading × Builder) : Prop where
  kept : s.2.Kept session prev cs
  closed : ∀ o ∈ s.1, ∀ l, o.outcome.closed = some l → Collected l

theorem gathered_step {prev : Option Char} {pos : Nat} {c : Char} {cs : List Char}
    {kind : Lexeme.Kind} {n : Nat} {s s' : List Reading × Builder}
    (hrec : Lexeme.Recognised prev s.2.isHex c cs kind n) (hs : Gathered session prev (c :: cs) s)
    (hs' : gather s ⟨kind, c :: cs.take n, pos⟩ = .ok s') :
    Gathered session (c :: cs.take n).getLast? (cs.drop n) s' := by
  rw [← Except.ok.inj hs']
  rcases kept_accept pos hs.kept hrec with ⟨hkept, hclosed⟩
  exact ⟨hkept, List.forall_mem_cons.mpr ⟨hclosed, hs.closed⟩⟩

/-- A literal has been closed by a lexeme, or by the end. -/
theorem Gathered.collected {s : List Reading × Builder} {stoppedAt : Option Nat}
    {prev : Option Char} {cs : List Char} (hs : Gathered session prev cs s)
    (h : l ∈ Readings.literals ⟨s.1.reverse, stoppedAt, s.2.finish.1⟩) : Collected l := by
  rcases List.mem_append.mp h with h | h
  · rcases List.mem_filterMap.mp h with ⟨o, ho, hclosed⟩
    exact hs.closed o (List.mem_reverse.mp ho) l hclosed
  · exact collected_of_finish hs.kept (Option.mem_toList.mp h)

/-- What holds at the start of a text and is kept at every lexeme holds where the
    reading ends, be it at the end of the text or before. -/
theorem readText_induction {I : Option Char → List Char → List Reading × Builder → Prop}
    (hstep : ∀ prev pos c cs kind n s, Lexeme.Recognised prev s.2.isHex c cs kind n →
      I prev (c :: cs) s → ∀ s', gather s ⟨kind, c :: cs.take n, pos⟩ = .ok s' →
        I (c :: cs.take n).getLast? (cs.drop n) s')
    (hstart : I none text ([], Builder.new session)) :
    ∃ prev rest s stoppedAt, I prev rest s ∧
      readText session text = ⟨s.1.reverse, stoppedAt, s.2.finish.1⟩ := by
  rcases Lexeme.scan_induction (·.2.isHex) gather (fun s pos _ => (s, pos))
      (fun prev pos c cs kind n s s' hrec hs hs' => hstep prev pos c cs kind n s hrec hs s' hs')
      hstart with ⟨hok, herror⟩
  rcases hend : Lexeme.scan (·.2.isHex) gather (fun s pos _ => (s, pos)) none 0 text
    ([], Builder.new session) with e | s
  · rcases herror e hend with ⟨last, rest, s, hs, ⟨pos, c, rfl⟩ | ⟨l, hl⟩⟩
    · exact ⟨last, rest, s, some pos, hs, readText_of_error hend⟩
    · cases hl
  · rcases hok s hend with ⟨last, hs⟩
    exact ⟨last, [], s, none, hs, readText_of_ok hend⟩

/-- Every literal of a text has been collected so, whether the text is read to its
    end or not. -/
theorem collected_of_readText (h : l ∈ (readText session text).literals) : Collected l := by
  have hstart : Gathered session none text ([], Builder.new session) :=
    ⟨kept_new (fun h => absurd h Bool.false_ne_true), fun o ho => absurd ho List.not_mem_nil⟩
  rcases readText_induction
      (fun prev pos c cs kind n s hrec hs s' hs' => gathered_step hrec hs hs') hstart with
    ⟨prev, rest, s, stoppedAt, hs, hread⟩
  rw [hread] at h
  exact hs.collected h

end Gathering

section Ending

open Token (Leading IsMantissa inMantissa)

variable {r : Radix} {ms sign es rest : List Char} {l : Literal} {n : Nat}

theorem fits_of_append {fits : Option Char → Char → Prop} {prev : Option Char} {as bs : List Char}
    {c : Char} (h : Chained fits prev (as ++ c :: bs)) : fits (as.getLast?.or prev) c :=
  (chained_append.mp h).2.1

/-- No letter of a power of ten stands in a mantissa. -/
theorem not_mem_mantissa (hms : IsMantissa r ms) (hr : r ≠ .hex) : exponentLetter ∉ ms := by
  intro hmem
  rcases hms.made _ hmem with h | h
  · exact absurd h (by decide)
  · exact absurd (Radix.isDigit_of_accepts hr h) (by decide)

/-- Nothing but the letter follows the mantissa of a literal. -/
theorem eq_nil_of_mantissa (hms : IsMantissa r ms) (h : Chained (Fits r) none (ms ++ rest))
    (hrest : ∀ c ∈ rest.head?, inMantissa r c = false ∧ (r ≠ .hex → c ≠ exponentLetter)) :
    rest = [] := by
  rcases rest with _ | ⟨c, rest⟩
  · rfl
  rcases hrest c rfl with ⟨hout, hletter⟩
  rw [inMantissa, Token.isDigitCandidate, Bool.or_eq_false_iff, Bool.or_eq_false_iff] at hout
  cases fits_of_append h with
  | digit hc =>
      by_cases hr : r = .hex
      · rw [hr] at hc hout
        rw [hc] at hout
        exact absurd hout.2.2 (by decide)
      · rw [Radix.isDigit_of_accepts hr hc] at hout
        exact absurd hout.2.1 (by simp only [Bool.true_eq_false, not_false_eq_true])
  | point hc =>
      rw [hc] at hout
      exact absurd hout.1 (by decide)
  | exponent hr hc => exact absurd hc (hletter hr)
  | sign hr _ hprev =>
      rw [Option.or_none] at hprev
      exact absurd (List.mem_of_getLast? hprev) (not_mem_mantissa hms hr)

/-- Behind the digits of a power of ten stands a point or another letter. -/
theorem point_or_letter (hr : r ≠ .hex) (hne : es ≠ []) (hes : ∀ c ∈ es, c.isDigit = true)
    {prev : Option Char} (h : Chained (Fits r) prev (es ++ rest))
    (hrest : ∀ c ∈ rest.head?, c.isDigit = false) :
    ∀ c ∈ rest.head?, c = '.' ∨ c = exponentLetter := by
  intro c hc
  rcases rest with _ | ⟨d, rest⟩
  · exact absurd hc (Option.not_mem_none c)
  rw [List.head?_cons, Option.mem_some_iff] at hc
  subst hc
  cases fits_of_append h with
  | digit hc =>
      have hdigit := hrest d rfl
      rw [Radix.isDigit_of_accepts hr hc] at hdigit
      exact absurd hdigit (by simp only [Bool.true_eq_false, not_false_eq_true])
  | point hc => exact .inl hc
  | exponent _ hc => exact .inr hc
  | sign _ _ hprev =>
      -- The digit before is no letter.
      rw [List.getLast?_eq_some_getLast hne, Option.some_or, Option.some.injEq] at hprev
      have hdigit := hes _ (List.getLast_mem hne)
      rw [hprev] at hdigit
      exact absurd hdigit (by decide)

theorem ne_letter (hms : exponentLetter ∉ ms) : ∀ c ∈ ms, (c != exponentLetter) = true := by
  intro c hc
  rw [bne_iff_ne]
  exact fun h => hms (h ▸ hc)

theorem behindLetter_append (hms : exponentLetter ∉ ms) (rest : List Char) :
    behindLetter (ms ++ exponentLetter :: rest) = rest := by
  rw [behindLetter, List.dropWhile_append_of_pos (ne_letter hms),
    List.dropWhile_cons_of_neg (by decide), List.tail_cons]

theorem behindLetter_of_not_mem (hms : exponentLetter ∉ ms) : behindLetter ms = [] := by
  have hdrop : (ms ++ []).dropWhile (· != exponentLetter) = [] :=
    List.dropWhile_append_of_pos (ne_letter hms)
  rw [List.append_nil] at hdrop
  rw [behindLetter, hdrop, List.tail_nil]

/-- Digits overrun nothing. -/
theorem any_digits (hes : ∀ c ∈ es, c.isDigit = true) :
    es.any (fun c => c == '.' || c == exponentLetter) = false := by
  rw [List.any_eq_false]
  intro c hc hover
  rw [Bool.or_eq_true, beq_iff_eq, beq_iff_eq] at hover
  have hdigit := hes c hc
  rcases hover with rfl | rfl <;> exact absurd hdigit (by decide)

/-- Where the number ends in a literal: at its end, or before what overruns. -/
theorem leading_chained (hspelled : Chained (Fits l.radix) none l.digits)
    (h : Leading l.radix l.digits n) :
    (∀ c ∈ (l.digits.drop n).head?, c = '.' ∨ c = exponentLetter) ∧
      (l.digits.drop n = [] ↔ l.overruns = false) := by
  unfold overruns
  generalize l.digits = ds at hspelled h
  cases h with
  | mantissa hms hrest =>
      have hnil := eq_nil_of_mantissa hms hspelled hrest
      rw [hnil, List.append_nil, List.drop_length]
      refine ⟨fun c hc => absurd hc (Option.not_mem_none c), iff_of_true rfl ?_⟩
      by_cases hr : l.radix = .hex
      · rw [hr]
        rfl
      · rw [behindLetter_of_not_mem (not_mem_mantissa hms hr), List.any_nil, Bool.and_false]
  | @power ms sign es rest hr hms hsign hne hes hrest =>
      have hassoc : ms ++ exponentLetter :: (sign ++ es) ++ rest =
          ms ++ exponentLetter :: (sign ++ (es ++ rest)) := by
        rw [List.append_assoc, List.cons_append, List.append_assoc]
      rw [List.drop_left, hassoc, behindLetter_append (not_mem_mantissa hms hr)]
      rw [hassoc] at hspelled
      have hhead : ∀ c ∈ rest.head?, c = '.' ∨ c = exponentLetter := by
        have hchained := (chained_append.mp hspelled).2.2
        exact point_or_letter hr hne hes (chained_append.mp hchained).2 hrest
      refine ⟨hhead, ?_⟩
      -- Neither the sign nor the digits overrun, so what is left decides.
      have hsigns : ∀ sign ∈ [[], ['+'], ['-']],
          sign.any (fun c => c == '.' || c == exponentLetter) = false := by decide
      rw [List.any_append, List.any_append, hsigns sign hsign, any_digits hes, Bool.false_or,
        Bool.false_or, bne_iff_ne.mpr hr, Bool.true_and]
      cases rest with
      | nil => exact iff_of_true rfl rfl
      | cons c rest =>
          refine iff_of_false (List.cons_ne_nil c rest) ?_
          rw [List.any_cons]
          rcases hhead c rfl with rfl | rfl <;>
            simp only [beq_self_eq_true, Bool.true_or, Bool.or_true, Bool.true_eq_false,
              not_false_eq_true]

end Ending

section Tokens

open Token (Leading tokenizeFrom readNumber leading_of_readNumber numberThen)

variable {r : Radix} {l : Literal} {ts : List Token} {n : Nat}

/-- No number begins with the letter of a power of ten. -/
theorem not_leading_letter {cs : List Char} (hr : r ≠ .hex)
    (hhead : cs.head? = some exponentLetter) : ¬Leading r cs n := by
  intro h
  rcases Token.mantissa_of_leading h with ⟨_ | ⟨c, ms⟩, rest, rfl, hms, -⟩
  · exact hms.ne_nil rfl
  · rw [List.cons_append, List.head?_cons, Option.some.injEq] at hhead
    exact not_mem_mantissa hms hr (hhead ▸ List.mem_cons_self)

/-- No character of a number is the letter of a marker. -/
theorem Fits.not_markerLetter {prev : Option Char} {c : Char} (h : Fits r prev c) :
    c ∉ ['b', 'o', 'd', 'x'] := by
  have hall : ∀ c ∈ ['b', 'o', 'd', 'x'], r.accepts c = false ∧ c ≠ '.' ∧ c ≠ exponentLetter ∧
      c ≠ '+' ∧ c ≠ '-' := by
    cases r <;> exact Text.forall_of_all (by decide)
  intro hc
  rcases hall c hc with ⟨hdigit, hpoint, hletter, hplus, hminus⟩
  cases h with
  | digit h => exact absurd (h.symm.trans hdigit) (by decide)
  | point h => exact hpoint h
  | exponent _ h => exact hletter h
  | sign _ h => exact h.elim hplus hminus

/-- Without a marker the digits of a literal begin as a decimal number does. -/
theorem tokenizeFrom_spelled {ds : List Char} (hne : ds ≠ []) (h : Chained (Fits .dec) none ds)
    (pos : Nat) :
    tokenizeFrom pos ds =
      numberThen (readNumber .dec pos ds) fun n => tokenizeFrom (pos + n) (ds.drop n) := by
  rcases ds with _ | ⟨c, cs⟩
  · exact absurd rfl hne
  have hc : (c.isDigit || c == '.') = true := by
    cases h.1 with
    | digit h => rw [Radix.isDigit_of_accepts (by decide) h, Bool.true_or]
    | point h => rw [h]; decide
    | exponent _ _ hprev => exact absurd hprev Bool.false_ne_true
    | sign _ _ hprev => cases hprev
  have hmarker : Radix.splitLongMarker? (c :: cs) = none := by
    refine Radix.splitLongMarker?_eq_none (fun d hd => ?_)
    rcases cs with _ | ⟨e, cs⟩
    · exact absurd hd (Option.not_mem_none d)
    · rw [List.head?_cons, Option.mem_some_iff] at hd
      exact hd ▸ h.2.1.not_markerLetter
  exact Token.tokenizeFrom_decimal pos hmarker hc

/-- The first token of a literal is the number at the front of its digits. -/
theorem number_of_collected (h : Collected l) (hts : Token.tokenize l.normal = .ok ts) :
    Chained (Fits l.radix) none l.digits ∧ ∃ q pos n pos' ts',
      readNumber l.radix pos l.digits = .ok (q, n) ∧
        tokenizeFrom pos' (l.digits.drop n) = .ok ts' ∧ ts = .num q :: ts' := by
  unfold Token.tokenize normal at hts
  split at hts
  · rw [Token.tokenizeFrom_marked] at hts
    rcases Token.numberThen_ok hts with ⟨q, n, ts', hread, hrest, hts'⟩
    refine ⟨?_, q, _, n, _, ts', hread, hrest, hts'⟩
    cases h with
    | spelled _ hspelled => exact hspelled
    | headless _ hhex hhead =>
        exact absurd (leading_of_readNumber hread) (not_leading_letter hhex hhead)
  · rename_i hplain
    rw [Bool.or_eq_true, decide_eq_true_eq, not_or, Decidable.not_not, Bool.not_eq_true] at hplain
    cases h with
    | headless hdec => exact absurd hplain.2 hdec
    | spelled hfilled hspelled =>
        have hdecimal := hspelled
        rw [hplain.2] at hdecimal
        rw [tokenizeFrom_spelled (hfilled hplain.1) hdecimal, ← hplain.2] at hts
        rcases Token.numberThen_ok hts with ⟨q, n, ts', hread, hrest, hts'⟩
        exact ⟨hspelled, q, _, n, _, ts', hread, hrest, hts'⟩

/-- A literal of a text that is cut into tokens begins with a number, which ends
    with it, or before a point or a letter that follows its power of ten; it is a
    single token exactly if nothing does. -/
theorem tokenize_literal {session : Radix} {text : List Char}
    (hl : l ∈ (readText session text).literals) (hts : Token.tokenize l.normal = .ok ts) :
    ∃ q back pos ts', ts = .num q :: ts' ∧ back <:+ l.digits ∧
      (∀ c ∈ back.head?, c = '.' ∨ c = exponentLetter) ∧ tokenizeFrom pos back = .ok ts' ∧
      (ts' = [] ↔ l.overruns = false) := by
  rcases number_of_collected (collected_of_readText hl) hts with
    ⟨hspelled, q, pos, n, pos', ts', hread, hrest, hts'⟩
  rcases leading_chained hspelled (leading_of_readNumber hread) with ⟨hhead, hover⟩
  refine ⟨q, l.digits.drop n, pos', ts', hts', List.drop_suffix n _, hhead, hrest, ?_⟩
  rw [← hover]
  generalize l.digits.drop n = back at hhead hrest
  rcases back with _ | ⟨c, cs⟩
  · rw [tokenizeFrom, Except.ok.injEq] at hrest
    exact iff_of_true hrest.symm rfl
  · -- What begins with a point or a letter is not blank, so it has a token.
    refine iff_of_false ?_ (List.cons_ne_nil c cs)
    rcases Token.begins_of_tokenizes hrest with ⟨hblank, -⟩ | ⟨t, tail, pos'', ts'', -, -, rfl⟩
    · rcases hhead c rfl with rfl | rfl <;> exact absurd hblank (by decide)
    · exact List.cons_ne_nil t ts''

/-- In a session of base two, `0d:1.5E-3+1` has the literal `0d:1.5E-3`, which is
    one number, since only digits follow its power of ten. -/
theorem tokenize_scaled_literal :
    ⟨.dec, true, ['1', '.', '5', 'E', '-', '3']⟩ ∈
        (readText .bin "0d:1.5E-3+1".toList).literals ∧
      Token.tokenize "0d:1.5E-3".toList = .ok [.num (3 / 2000)] ∧
      ∃ q back pos ts', [Token.num (3 / 2000)] = .num q :: ts' ∧
        back <:+ ['1', '.', '5', 'E', '-', '3'] ∧
        (∀ c ∈ back.head?, c = '.' ∨ c = exponentLetter) ∧ tokenizeFrom pos back = .ok ts' ∧
        (ts' = [] ↔ overruns ⟨.dec, true, ['1', '.', '5', 'E', '-', '3']⟩ = false) := by
  have hl : ⟨.dec, true, ['1', '.', '5', 'E', '-', '3']⟩ ∈
      (readText .bin "0d:1.5E-3+1".toList).literals := by decide +kernel
  have hts : Token.tokenize "0d:1.5E-3".toList = .ok [.num (3 / 2000)] := by decide +kernel
  exact ⟨hl, hts, tokenize_literal hl hts⟩

/-- The literal `1E2.5` is cut into two numbers. -/
theorem tokenize_overrun : ∃ l ∈ (readText .dec "1E2.5".toList).literals,
    Token.tokenize l.normal = .ok [.num 100, .num (1 / 2)] :=
  ⟨⟨.dec, false, "1E2.5".toList⟩, by decide +kernel, by decide +kernel⟩

end Tokens

end Literal

end ExactCalc
