import ExactCalc.Proofs.Token.Literals
import Mathlib.Data.List.Forall2

/-!
# Literals and Their Lexemes

Which lexemes of a text went into which literal.

What a reading tells of a lexeme is whether the lexeme was absorbed and which literal
it closed. That is enough to put the absorbed lexemes into rows, one for each literal:
a lexeme that is absorbed goes on with the row that is pending, unless it has closed a
literal, in which case that row is complete and the lexeme begins another one. `parts`
sorts the lexemes so without looking at the builder. No lexeme is left out and none
changes its place, whatever the outcomes are.

The builder keeps nothing but a body, a base, and whether a marker was seen. That this
agrees with the rows is an invariant of the pair: while a row is pending the builder
holds the texts of its lexemes, in the base of its marker if it began with one and in
the base of the session otherwise, and while none is pending the builder is as it was
at the start. A lexeme can break it in one way only, by closing one literal and opening
the next in the same step, and there the row changes together with the base.

## Main definitions

* `Parts`, `Assembly`: The lexemes of one literal, and those of a whole text, sorted by
  the literals they went into.
* `bodyOf`, `absorbed`: What lexemes are as a body, and those that went into literals.
* `builderAfter`, `Builder.Idle`: The builder behind a part of the readings.
* `BodyText`, `Assembled`: What a body consists of, and when a literal agrees with its
  lexemes.
* `Takes`: The characters that go on with a body.
* `Pending`: What a builder holds of the literal that is open.

## Theorems

* `lexemes_parts`: No absorbed lexeme is left out or changes its place.
* `flatMap_body`: All bodies are what all lexemes are.
* `idle_builderAfter`: A builder with nothing open is a fresh one.
* `BodyText.concat`: One character more.
* `assembles_accept`: What one lexeme makes of the literals and their lexemes.
* `assembles_readText`: What a text makes of them.
* `readText_assembled`: The literals of a text, lexeme by lexeme.
-/

namespace ExactCalc

namespace Literal

/-- The lexemes of one literal: the one that opened it, and the others in order. -/
structure Parts where
  opener : Lexeme
  others : List Lexeme
  deriving DecidableEq, Repr

/-- All the lexemes of a literal. -/
def Parts.lexemes (ps : Parts) : List Lexeme := ps.opener :: ps.others

/-- What lexemes are as the body of a literal: their texts, markers apart. -/
def bodyOf (ls : List Lexeme) : List Char :=
  (ls.filter (·.kind != .marker)).flatMap (·.text)

/-- The lexemes of the literals that have been closed, and of the one that is open. -/
structure Assembly where
  closed : List Parts
  pending : Option Parts
  deriving DecidableEq, Repr

namespace Assembly

/-- One lexeme more, by what became of it. -/
def add (a : Assembly) (r : Reading) : Assembly :=
  let rest : Assembly :=
    if r.outcome.closed.isSome then ⟨a.closed ++ a.pending.toList, none⟩ else a
  if r.outcome.absorbed then
    match rest.pending with
    | none => { rest with pending := some ⟨r.lexeme, []⟩ }
    | some ps => { rest with pending := some ⟨ps.opener, ps.others ++ [r.lexeme]⟩ }
  else rest

/-- The lexemes of a row of readings. -/
def ofReadings (rs : List Reading) : Assembly :=
  rs.foldl add ⟨[], none⟩

/-- The lexemes of every literal, the open one included. -/
def all (a : Assembly) : List Parts := a.closed ++ a.pending.toList

end Assembly

/-- The lexemes of the literals of a text, in order. -/
def Readings.parts (rs : Readings) : List Parts :=
  (Assembly.ofReadings rs.readings).all

/-- The lexemes that were absorbed into literals, in order. -/
def absorbed (rs : List Reading) : List Lexeme :=
  (rs.filter (·.outcome.absorbed)).map (·.lexeme)

/-- The builder behind a row of readings. -/
def builderAfter (session : Radix) (rs : List Reading) : Builder :=
  rs.foldl (fun b r => (b.accept r.lexeme).2) (.new session)

/-- What a body in a base consists of: no digit that the base lacks, the letter of a
    power of ten apart, and no sign but that of a power of ten. -/
structure BodyText (r : Radix) (body : List Char) : Prop where
  digits : ∀ c ∈ body, Radix.hex.accepts c = true →
    r.accepts c = true ∨ (r ≠ .hex ∧ c = exponentLetter)
  signs : ∀ front c back, body = front ++ c :: back → c = '+' ∨ c = '-' →
    front.getLast? = some exponentLetter ∧ r ≠ .hex

/-- A literal agrees with the lexemes it was put together from in a session. -/
structure Assembled (session : Radix) (ps : Parts) (l : Literal) : Prop where
  body : l.body = bodyOf ps.lexemes
  explicit : l.explicit = true ↔ ps.opener.kind = .marker
  marked : ps.opener.kind = .marker → Radix.ofMarker? ps.opener.text = some l.radix
  unmarked : ps.opener.kind ≠ .marker → l.radix = session
  text : BodyText l.radix l.body

section Rows

/-- What stands in a row that one thing was added to: that thing itself, or one of the
    others. -/
theorem concat_split {α : Type} {xs front back : List α} {x y : α}
    (h : xs ++ [x] = front ++ y :: back) :
    (xs = front ∧ x = y) ∨ ∃ back', xs = front ++ y :: back' := by
  rcases List.eq_nil_or_concat back with rfl | ⟨back', z, rfl⟩
  · rcases List.append_inj' h rfl with ⟨hxs, hx⟩
    exact .inl ⟨hxs, (List.cons.inj hx).1⟩
  · have hsplit : xs ++ [x] = (front ++ y :: back') ++ [z] := by
      rw [h, List.concat_eq_append, List.append_assoc, List.cons_append]
    exact .inr ⟨back', (List.append_inj' hsplit rfl).1⟩

@[simp, grind =]
theorem bodyOf_append (as bs : List Lexeme) : bodyOf (as ++ bs) = bodyOf as ++ bodyOf bs := by
  rw [bodyOf, bodyOf, bodyOf, List.filter_append, List.flatMap_append]

theorem bodyOf_marker {l : Lexeme} (h : l.kind = .marker) : bodyOf [l] = [] := by
  rw [bodyOf, List.filter_cons_of_neg (by rw [h]; decide)]
  rfl

theorem bodyOf_singleton {l : Lexeme} (h : l.kind ≠ .marker) : bodyOf [l] = l.text := by
  have hkeep : (l.kind != .marker) = true := bne_iff_ne.mpr h
  rw [bodyOf, List.filter_cons, if_pos hkeep]
  exact List.append_nil l.text

theorem filterMap_closed (r : Reading) :
    [r].filterMap (·.outcome.closed) = r.outcome.closed.toList := by
  rcases r with ⟨l, _ | closed, absorbed⟩ <;> rfl

@[simp, grind =] theorem ofReadings_concat (rs : List Reading) (r : Reading) :
    Assembly.ofReadings (rs ++ [r]) = (Assembly.ofReadings rs).add r := by
  rw [Assembly.ofReadings, List.foldl_append]
  rfl

@[simp, grind =] theorem builderAfter_concat (session : Radix) (rs : List Reading) (r : Reading) :
    builderAfter session (rs ++ [r]) = ((builderAfter session rs).accept r.lexeme).2 := by
  rw [builderAfter, List.foldl_append]
  rfl

/-- One lexeme more changes the row by itself alone. -/
theorem lexemes_add (a : Assembly) (r : Reading) :
    (a.add r).all.flatMap Parts.lexemes =
      a.all.flatMap Parts.lexemes ++ if r.outcome.absorbed then [r.lexeme] else [] := by
  rcases a with ⟨closed, _ | ps⟩ <;> rcases r with ⟨l, _ | c, _ | _⟩ <;>
    simp [Assembly.add, Assembly.all, Parts.lexemes]

/-- No absorbed lexeme is left out, and none changes its place. -/
theorem lexemes_parts (rs : List Reading) :
    (Assembly.ofReadings rs).all.flatMap Parts.lexemes = absorbed rs := by
  induction rs using List.reverseRecOn with
  | nil => rfl
  | append_singleton rs r ih =>
      rw [ofReadings_concat, lexemes_add, ih, absorbed, absorbed, List.filter_append,
        List.map_append]
      rcases hr : r.outcome.absorbed with _ | _ <;> simp [hr]

/-- The body of a literal is what its lexemes are as one, so all bodies are what all
    absorbed lexemes are. -/
theorem flatMap_body {session : Radix} {pss : List Parts} {ls : List Literal}
    (h : List.Forall₂ (Assembled session) pss ls) :
    ls.flatMap (·.body) = bodyOf (pss.flatMap Parts.lexemes) := by
  induction h with
  | nil => rfl
  | cons hl _ ih => rw [List.flatMap_cons, List.flatMap_cons, bodyOf_append, hl.body, ih]

end Rows

section Builders

variable {session : Radix} {b : Builder} {l : Lexeme}

@[simp] theorem session_absorb (b : Builder) (l : Lexeme) : (b.absorb l).session = b.session := by
  unfold Builder.absorb
  split <;> rfl

theorem current_absorb (b : Builder) (l : Lexeme) : (b.absorb l).current ≠ none := by
  unfold Builder.absorb
  split <;> simp

/-- A builder works for one session, and with nothing open it is a fresh one. -/
structure Builder.Idle (session : Radix) (b : Builder) : Prop where
  session_eq : b.session = session
  fresh : b.current = none → b = .new session

theorem idle_new (session : Radix) : (Builder.new session).Idle session where
  session_eq := rfl
  fresh _ := rfl

theorem idle_absorb (h : b.session = session) (l : Lexeme) : (b.absorb l).Idle session where
  session_eq := (session_absorb b l).trans h
  fresh hnone := absurd hnone (current_absorb b l)

theorem idle_finish (h : b.Idle session) : b.finish.2 = .new session := by
  rcases hcurrent : b.current with _ | body
  · rw [Builder.finish_of_current_eq_none hcurrent]
    exact h.fresh hcurrent
  · rw [Builder.finish_of_current_eq_some hcurrent, h.session_eq]

/-- This holds whatever the lexeme is. -/
theorem idle_accept (h : b.Idle session) (l : Lexeme) : (b.accept l).2.Idle session := by
  unfold Builder.accept
  by_cases hgoes : b.canContinue l = true
  · rw [if_pos hgoes]
    exact idle_absorb h.session_eq l
  · rw [if_neg hgoes]
    simp only [idle_finish h]
    by_cases hnext : (Builder.new session).canContinue l = true
    · rw [if_pos hnext]
      exact idle_absorb (idle_new session).session_eq l
    · rw [if_neg hnext]
      exact idle_new session

theorem idle_builderAfter (session : Radix) (rs : List Reading) :
    (builderAfter session rs).Idle session := by
  induction rs using List.reverseRecOn with
  | nil => exact idle_new session
  | append_singleton rs r ih =>
      rw [builderAfter_concat]
      exact idle_accept ih r.lexeme

end Builders

section Characters

variable {prev : Option Char} {hex : Bool} {c : Char} {cs : List Char} {kind : Lexeme.Kind}
  {n pos : Nat} {b : Builder} {r : Radix} {body : List Char}

/-- The characters that go on with a body in a base. -/
inductive Takes (r : Radix) (body : List Char) (c : Char) : Prop where
  | separator (h : Numeral.isSeparator c = true)
  | point (h : c = '.')
  | digit (h : r.accepts c = true)
  | letter (hr : r ≠ .hex) (h : c = exponentLetter)
  | sign (hr : r ≠ .hex) (h : c = '+' ∨ c = '-') (hlast : body.getLast? = some exponentLetter)

/-- What is absorbed and no marker is one character that goes on with the body. -/
theorem takes_of_continues (hrec : Lexeme.Recognised prev hex c cs kind n)
    (hletter : kind = .exponent → b.active ≠ .hex) (hkind : kind ≠ .marker)
    (hgoes : b.canContinue ⟨kind, c :: cs.take n, pos⟩ = true) :
    c :: cs.take n = [c] ∧ Takes b.active (b.current.getD []) c := by
  rw [Builder.canContinue_eq, Bool.or_eq_true] at hgoes
  rcases hgoes with hgoes | hsign
  · rw [Builder.goesOn] at hgoes
    cases hrec with
    | marker => exact absurd rfl hkind
    | separator h => exact ⟨rfl, .separator h⟩
    | point h => exact ⟨rfl, .point h⟩
    | exponent _ h => exact ⟨rfl, .letter (hletter rfl) h⟩
    | digit => exact ⟨rfl, .digit hgoes⟩
    | _ => exact absurd hgoes Bool.false_ne_true
  · rcases Builder.takesSign_eq_true.mp hsign with ⟨hhex, htext, body, hbody, hlast⟩
    have hone : cs.take n = [] ∧ (c = '+' ∨ c = '-') := by
      simp only [List.cons.injEq] at htext
      rcases htext with ⟨hc, htake⟩ | ⟨hc, htake⟩
      · exact ⟨htake, .inl hc⟩
      · exact ⟨htake, .inr hc⟩
    rw [hbody, hone.1]
    exact ⟨rfl, .sign hhex hone.2 hlast⟩

/-- The digit of some base that goes on with a body belongs to the base of the body,
    unless it is the letter of a power of ten. -/
theorem Takes.digit_of_accepts (h : Takes r body c) (hc : Radix.hex.accepts c = true) :
    r.accepts c = true ∨ (r ≠ .hex ∧ c = exponentLetter) := by
  cases h with
  | separator hsep =>
      rw [Radix.isSeparator_of_accepts hc] at hsep
      exact absurd hsep Bool.false_ne_true
  | point h =>
      rw [h] at hc
      exact absurd hc (by decide)
  | digit h => exact .inl h
  | letter hr h => exact .inr ⟨hr, h⟩
  | sign _ h => rcases h with rfl | rfl <;> exact absurd hc (by decide)

theorem Takes.last_of_sign (h : Takes r body c) (hc : c = '+' ∨ c = '-') :
    body.getLast? = some exponentLetter ∧ r ≠ .hex := by
  cases h with
  | separator h => rcases hc with rfl | rfl <;> exact absurd h (by decide)
  | point h => rcases hc with rfl | rfl <;> exact absurd h (by decide)
  | digit h => rcases hc with rfl | rfl <;> cases r <;> exact absurd h (by decide)
  | letter _ h => rcases hc with rfl | rfl <;> exact absurd h (by decide)
  | sign hr _ hlast => exact ⟨hlast, hr⟩

theorem bodyText_nil (r : Radix) : BodyText r [] where
  digits _ h := absurd h List.not_mem_nil
  signs front c back h := absurd h (List.append_ne_nil_of_right_ne_nil front
    (List.cons_ne_nil c back)).symm

/-- One character more, which is looked at with the last of the body alone. -/
theorem BodyText.concat (h : BodyText r body) (hc : Takes r body c) :
    BodyText r (body ++ [c]) where
  digits d hd haccepts := by
    rcases List.mem_append.mp hd with hd | hd
    · exact h.digits d hd haccepts
    · rw [List.mem_singleton.mp hd] at haccepts ⊢
      exact hc.digit_of_accepts haccepts
  signs front d back heq hsign := by
    rcases concat_split heq with ⟨rfl, rfl⟩ | ⟨back', hbody⟩
    · exact hc.last_of_sign hsign
    · exact h.signs front d back' hbody hsign

end Characters

section Steps

variable {session : Radix} {prev : Option Char} {hex : Bool} {c : Char} {cs : List Char}
  {kind : Lexeme.Kind} {n pos : Nat} {b : Builder} {ps : Parts} {body : List Char}

open Preparation (absorb_of_ne_marker)

/-- What a builder holds of a literal that is pending. -/
inductive Pending (session : Radix) : Option Parts → Builder → Prop where
  | nothing : Pending session none (.new session)
  | literal {ps : Parts} {b : Builder} {body : List Char} (hsession : b.session = session)
      (hcurrent : b.current = some body) (h : Assembled session ps ⟨b.active, b.explicit, body⟩) :
      Pending session (some ps) b

/-- The literal that is still open at the end is closed there. -/
theorem Pending.finish {pending : Option Parts} (h : Pending session pending b) :
    List.Forall₂ (Assembled session) pending.toList b.finish.1.toList := by
  cases h with
  | nothing => exact .nil
  | literal _ hcurrent h =>
      rw [Builder.finish_of_current_eq_some hcurrent]
      exact .cons h .nil

theorem ofMarker?_of_recognised (h : Lexeme.Recognised prev hex c cs .marker n) :
    ∃ r, Radix.ofMarker? (c :: cs.take n) = some r := by
  cases h with
  | marker _ h =>
      rcases h with h | ⟨r, h⟩
      · exact ⟨.hex, by rw [h]; decide⟩
      · exact ⟨r, by rw [h, Radix.ofMarker?_marker]⟩

/-- A lexeme that opens a literal: a marker decides the base, and anything else leaves
    that of the session in force. -/
theorem pending_opened (hrec : Lexeme.Recognised prev hex c cs kind n)
    (hletter : kind = .exponent → session ≠ .hex)
    (hgoes : (Builder.new session).canContinue ⟨kind, c :: cs.take n, pos⟩ = true) :
    Pending session (some ⟨⟨kind, c :: cs.take n, pos⟩, []⟩)
      ((Builder.new session).absorb ⟨kind, c :: cs.take n, pos⟩) := by
  by_cases hkind : kind = .marker
  · subst hkind
    rcases ofMarker?_of_recognised hrec with ⟨r, hr⟩
    have habsorb : (Builder.new session).absorb ⟨.marker, c :: cs.take n, pos⟩ =
        ⟨session, r, some [], true⟩ := by
      rw [Builder.absorb, if_pos rfl, hr]
      rfl
    rw [habsorb]
    refine .literal rfl rfl ⟨(bodyOf_marker rfl).symm, iff_of_true rfl rfl, fun _ => hr, ?_,
      bodyText_nil r⟩
    exact fun h => absurd rfl h
  · rcases takes_of_continues hrec hletter hkind hgoes with ⟨hone, htakes⟩
    have habsorb : (Builder.new session).absorb ⟨kind, c :: cs.take n, pos⟩ =
        ⟨session, session, some (c :: cs.take n), false⟩ := absorb_of_ne_marker hkind
    rw [habsorb]
    refine .literal rfl rfl ⟨?_, iff_of_false Bool.false_ne_true hkind, fun h => absurd h hkind,
      fun _ => rfl, ?_⟩
    · exact (bodyOf_singleton (l := ⟨kind, c :: cs.take n, pos⟩) hkind).symm
    · have htext := (bodyText_nil session).concat htakes
      rwa [← hone] at htext

/-- A lexeme that goes on with the pending literal is no marker. -/
theorem pending_continued (hsession : b.session = session) (hcurrent : b.current = some body)
    (h : Assembled session ps ⟨b.active, b.explicit, body⟩)
    (hrec : Lexeme.Recognised prev b.isHex c cs kind n)
    (hgoes : b.canContinue ⟨kind, c :: cs.take n, pos⟩ = true) :
    Pending session (some ⟨ps.opener, ps.others ++ [⟨kind, c :: cs.take n, pos⟩]⟩)
      (b.absorb ⟨kind, c :: cs.take n, pos⟩) := by
  have hkind : kind ≠ .marker := by
    rintro rfl
    have hnone := Builder.current_of_marker rfl (hrec.marker_length rfl).1 hgoes
    rw [hcurrent] at hnone
    cases hnone
  have hletter : kind = .exponent → b.active ≠ .hex := by
    rintro rfl
    cases hrec with
    | exponent hhex => exact beq_eq_false_iff_ne.mp hhex
  rcases takes_of_continues hrec hletter hkind hgoes with ⟨hone, htakes⟩
  rw [hcurrent, Option.getD_some] at htakes
  have hlexeme : bodyOf [⟨kind, c :: cs.take n, pos⟩] = c :: cs.take n := bodyOf_singleton hkind
  rw [absorb_of_ne_marker hkind, hcurrent, Option.getD_some]
  refine .literal hsession rfl ⟨?_, h.explicit, h.marked, h.unmarked, ?_⟩
  · show body ++ c :: cs.take n = bodyOf (ps.lexemes ++ [⟨kind, c :: cs.take n, pos⟩])
    rw [bodyOf_append, hlexeme, ← h.body]
  · have htext := h.text.concat htakes
    rwa [← hone] at htext

/-- What one lexeme makes of the literals and their lexemes: the rows go on as the
    builder does, and a row is complete where a literal is closed. -/
theorem assembles_accept {pending : Option Parts} (closed : List Parts) (pos : Nat)
    (h : Pending session pending b) (hrec : Lexeme.Recognised prev b.isHex c cs kind n) :
    ∃ pss pending', (Assembly.mk closed pending).add
        ⟨⟨kind, c :: cs.take n, pos⟩, (b.accept ⟨kind, c :: cs.take n, pos⟩).1⟩ =
          ⟨closed ++ pss, pending'⟩ ∧
      List.Forall₂ (Assembled session) pss
        (b.accept ⟨kind, c :: cs.take n, pos⟩).1.closed.toList ∧
      Pending session pending' (b.accept ⟨kind, c :: cs.take n, pos⟩).2 := by
  have hletter : kind = .exponent → b.active ≠ .hex := by
    rintro rfl
    cases hrec with
    | exponent hhex => exact beq_eq_false_iff_ne.mp hhex
  unfold Builder.accept
  by_cases hgoes : b.canContinue ⟨kind, c :: cs.take n, pos⟩ = true
  · rw [if_pos hgoes]
    cases h with
    | nothing =>
        exact ⟨[], _, by rw [List.append_nil]; rfl, .nil, pending_opened hrec hletter hgoes⟩
    | literal hsession hcurrent h =>
        refine ⟨[], _, by rw [List.append_nil]; rfl, .nil, ?_⟩
        exact pending_continued hsession hcurrent h hrec hgoes
  rw [if_neg hgoes]
  -- Nothing but a lexeme that goes on with any literal could open one in base sixteen.
  have hkind : kind ≠ .exponent := by
    rintro rfl
    rw [Builder.canContinue_eq, Builder.goesOn, Bool.true_or] at hgoes
    exact hgoes rfl
  cases h with
  | nothing =>
      have hfinish : (Builder.new session).finish = (none, .new session) := rfl
      simp only [hfinish, if_neg hgoes]
      exact ⟨[], none, by rw [List.append_nil]; rfl, .nil, .nothing⟩
  | @literal ps b body hsession hcurrent h =>
      have hfinish := Builder.finish_of_current_eq_some hcurrent
      rw [hsession] at hfinish
      simp only [hfinish]
      by_cases hnext : (Builder.new session).canContinue ⟨kind, c :: cs.take n, pos⟩ = true
      · rw [if_pos hnext]
        refine ⟨[ps], _, rfl, .cons h .nil, ?_⟩
        exact pending_opened hrec (fun h => absurd h hkind) hnext
      · rw [if_neg hnext]
        exact ⟨[ps], none, rfl, .cons h .nil, .nothing⟩

end Steps

section Readings

variable {session : Radix} {text : List Char}

/-- What has been made of a text so far, the last reading first. -/
structure Assembles (session : Radix) (s : List Reading × Builder) : Prop where
  built : s.2 = builderAfter session s.1.reverse
  outcomes : ∀ front r back, s.1.reverse = front ++ r :: back →
    r.outcome = ((builderAfter session front).accept r.lexeme).1
  closed : List.Forall₂ (Assembled session) (Assembly.ofReadings s.1.reverse).closed
    (s.1.reverse.filterMap (·.outcome.closed))
  pending : Pending session (Assembly.ofReadings s.1.reverse).pending s.2

theorem assembles_step {prev : Option Char} {pos : Nat} {c : Char} {cs : List Char}
    {kind : Lexeme.Kind} {n : Nat} {s s' : List Reading × Builder}
    (hrec : Lexeme.Recognised prev s.2.isHex c cs kind n) (hs : Assembles session s)
    (hs' : gather s ⟨kind, c :: cs.take n, pos⟩ = .ok s') : Assembles session s' := by
  rw [← Except.ok.inj hs']
  rcases assembles_accept (Assembly.ofReadings s.1.reverse).closed pos hs.pending hrec with
    ⟨pss, pending, hadd, hclosed, hpending⟩
  constructor
  · rw [List.reverse_cons, builderAfter_concat, ← hs.built]
  · intro front r back heq
    rw [List.reverse_cons] at heq
    rcases concat_split heq with ⟨hfront, hr⟩ | ⟨back', hreadings⟩
    · rw [← hr, ← hfront, ← hs.built]
    · exact hs.outcomes front r back' hreadings
  · rw [List.reverse_cons, ofReadings_concat, hadd, List.filterMap_append, filterMap_closed]
    exact List.rel_append hs.closed hclosed
  · rw [List.reverse_cons, ofReadings_concat, hadd]
    exact hpending

theorem assembles_readText (session : Radix) (text : List Char) :
    ∃ s, Assembles session s ∧ (readText session text).readings = s.1.reverse ∧
      (readText session text).last = s.2.finish.1 := by
  have hstart : Assembles session ([], Builder.new session) := by
    refine ⟨rfl, fun front r back h => ?_, .nil, .nothing⟩
    exact absurd h (List.append_ne_nil_of_right_ne_nil front (List.cons_ne_nil r back)).symm
  rcases readText_induction (I := fun _ _ s => Assembles session s)
      (fun prev pos c cs kind n s hrec hs s' hs' => assembles_step hrec hs hs') hstart with
    ⟨prev, rest, s, stoppedAt, hs, hread⟩
  exact ⟨s, hs, by rw [hread], by rw [hread]⟩

/-- The bodies of the literals are the absorbed lexemes without the markers. Each
    literal agrees with the lexemes that went into it: it has the base of its marker if
    it was opened by one and that of the session otherwise, its digits are digits of
    that base, and a sign stands in it only behind the letter of a power of ten. Every
    reading is what the builder behind the readings before it has made of its lexeme,
    and whenever that builder has no literal open, the base of the session is in force. -/
theorem readText_assembled (session : Radix) (text : List Char) :
    (readText session text).literals.flatMap (·.body) =
        bodyOf (absorbed (readText session text).readings) ∧
      List.Forall₂ (Assembled session) (readText session text).parts
        (readText session text).literals ∧
      (∀ front r back, (readText session text).readings = front ++ r :: back →
        r.outcome = ((builderAfter session front).accept r.lexeme).1) ∧
      ∀ rs, rs <+: (readText session text).readings → (builderAfter session rs).isOpen = false →
        (builderAfter session rs).active = session := by
  rcases assembles_readText session text with ⟨s, hs, hreadings, hlast⟩
  have hforall : List.Forall₂ (Assembled session) (readText session text).parts
      (readText session text).literals := by
    rw [Readings.parts, Readings.literals, hreadings, hlast]
    exact List.rel_append hs.closed hs.pending.finish
  refine ⟨?_, hforall, fun front r back h => ?_, fun rs _ hopen => ?_⟩
  · rw [flatMap_body hforall, Readings.parts, lexemes_parts]
  · exact hs.outcomes front r back (hreadings.symm.trans h)
  · have hnone : (builderAfter session rs).current = none :=
      Option.isNone_iff_eq_none.mp (Option.isSome_eq_false_iff.mp hopen)
    rw [(idle_builderAfter session rs).fresh hnone, Builder.active_new]

/-- The sum sign closes the number of base sixteen, and the one behind it is decimal
    again, with a sign of its own. -/
theorem readText_assembled_sum :
    (readText .dec "0x1F+2E-3".toList).literals =
        [⟨.hex, true, ['1', 'F']⟩, ⟨.dec, false, ['2', 'E', '-', '3']⟩] ∧
      bodyOf (absorbed (readText .dec "0x1F+2E-3".toList).readings) =
        ['1', 'F', '2', 'E', '-', '3'] ∧
      ∃ rs, rs <+: (readText .dec "0x1F+2E-3".toList).readings ∧ rs.length = 4 ∧
        (builderAfter .dec rs).isOpen = false ∧ (builderAfter .dec rs).active = .dec := by
  have hliterals : (readText .dec "0x1F+2E-3".toList).literals =
      [⟨.hex, true, ['1', 'F']⟩, ⟨.dec, false, ['2', 'E', '-', '3']⟩] := by decide +kernel
  rcases readText_assembled .dec "0x1F+2E-3".toList with ⟨hbodies, -, -, hidle⟩
  rw [hliterals] at hbodies
  refine ⟨hliterals, hbodies.symm, (readText .dec "0x1F+2E-3".toList).readings.take 4,
    List.take_prefix _ _, by decide +kernel, by decide +kernel, ?_⟩
  exact hidle _ (List.take_prefix _ _) (by decide +kernel)

end Readings

end Literal

end ExactCalc
