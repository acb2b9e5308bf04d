import ExactCalc.Proofs.Numeral.Conversion
import ExactCalc.Proofs.Prepared.Reread

/-!
# Typed Integers

What typed text that denotes an integer is prepared as.

A conversion takes a text apart from its front: blanks, a minus sign, blanks, a
marker, and then digits with separators among them. The walk over the same text
knows nothing of that; it goes from lexeme to lexeme, and a separator means
nothing to it before a number is open, while every one behind the first digit or
the marker goes into the number. The two meet in the parts of the text: each part
is reached in turn, and the number that is left open has the digits that the
conversion has read.

The short marker is the one place where they differ. A conversion takes it
wherever it stands, and the walk only in front of a digit.

## Main definitions

* `Numeral.Marked`: What may stand in front of the digits.
* `Numeral.Typed`: A text that denotes an integer, taken apart.
* `Numeral.Typed.expression`: What such a text is prepared as.

## Theorems

* `typed_of_readInt`: Every text that can be converted is taken apart.
* `reach_separators`, `reach_mark`, `reach_body`: How the walk reads the parts.
* `ofText_typed`: What the text is prepared as.
-/

namespace ExactCalc

namespace Numeral

/-- What may stand in front of the body of a number, the base that is in force
    behind it, and whether it is a marker. The short marker stands in front of a
    digit. -/
inductive Marked (session : Radix) : List Char → Radix → Bool → List Char → Prop where
  | plain (body : List Char) : Marked session [] session false body
  | long (r : Radix) (body : List Char) : Marked session r.marker r true body
  | short {d : Char} (hd : Radix.hex.accepts d = true) (body : List Char) :
      Marked session Radix.shortMarker .hex true (d :: body)

/-- A text that denotes an integer, taken apart. `session` is the base that is in
    force where no marker is typed. -/
structure Typed (session : Radix) (text : List Char) where
  lead : List Char
  negative : Bool
  gap : List Char
  mark : List Char
  radix : Radix
  explicit : Bool
  body : List Char
  text_eq : text = lead ++ (signText negative ++ (gap ++ (mark ++ body)))
  lead_separator : ∀ c ∈ lead, isSeparator c = true
  gap_separator : ∀ c ∈ gap, isSeparator c = true
  marked : Marked session mark radix explicit body
  body_class : ∀ c ∈ body, isSeparator c = true ∨ radix.accepts c = true
  digits_ne_nil : digitsOf body ≠ []

namespace Typed

variable {session : Radix} {text : List Char} (t : Typed session text)

/-- The literal behind the sign. -/
def literal : Literal := ⟨t.radix, t.explicit, t.body⟩

/-- The number behind the sign. -/
def size : Nat := value t.radix.size (digitsOf t.body)

/-- The integer. -/
def toInt : Int := if t.negative then -(t.size : Int) else t.size

/-- The expression that the text is prepared as. -/
def expression : List Char := signText t.negative ++ t.literal.normal

end Typed

/-- Every text that can be converted is taken apart, unless the short marker stands
    in front of a separator. -/
theorem typed_of_readInt {session : Radix} {text : List Char} {n : Int}
    (h : readInt session text = .ok n)
    (hshort : ∀ c, isSeparator c = true → ¬Radix.shortMarker ++ [c] <:+: text) :
    ∃ t : Typed session text, t.toInt = n := by
  rcases integerText_of_readInt h with ⟨⟨negative, gap, mark, r, body, htrim, hgap, hmark, hclass,
    hdigit⟩, hvalue⟩
  rcases trim_eq text with ⟨lead, trail, htext, hlead, htrail⟩
  -- The blanks at the end count for nothing, so they may stay with the body.
  have hdigits : digitsOf (body ++ trail) = digitsOf body := by
    rw [digitsOf_append, digitsOf_separators htrail, List.append_nil]
  have hparts : text = lead ++ (signText negative ++ (gap ++ (mark ++ (body ++ trail)))) := by
    calc text = lead ++ (Text.trim text ++ trail) := htext
      _ = lead ++ (signText negative ++ (gap ++ (mark ++ body)) ++ trail) := by rw [← htrim]
      _ = lead ++ (signText negative ++ (gap ++ (mark ++ (body ++ trail)))) := by
        simp only [List.append_assoc]
  have hbody : ∀ c ∈ body ++ trail, isSeparator c = true ∨ r.accepts c = true := by
    intro c hc
    exact (List.mem_append.mp hc).elim (hclass c) (fun hc => .inl (htrail c hc))
  have hmarked : ∃ explicit, Marked session mark r explicit (body ++ trail) := by
    rcases hmark.cases with ⟨hmark, hr⟩ | hmark | ⟨hmark, hr⟩
    · rw [hmark, hr]
      exact ⟨false, .plain _⟩
    · rw [hmark]
      exact ⟨true, .long r _⟩
    · -- What stands behind the short marker is no separator, so it is a digit.
      rcases hcs : body ++ trail with _ | ⟨c, cs⟩
      · rcases hdigit with ⟨d, hd, -⟩
        rw [(List.append_eq_nil_iff.mp hcs).1] at hd
        exact absurd hd List.not_mem_nil
      have hc : Radix.hex.accepts c = true := by
        have hmem : c ∈ body ++ trail := by
          rw [hcs]
          exact List.mem_cons_self
        rw [← hr]
        refine (hbody c hmem).resolve_left (fun hsep => hshort c hsep ?_)
        refine ⟨lead ++ (signText negative ++ gap), cs, ?_⟩
        rw [hparts, hmark, hcs]
        simp only [List.append_assoc, List.singleton_append]
      rw [hmark, hr]
      exact ⟨true, .short hc cs⟩
  rcases hmarked with ⟨explicit, hmarked⟩
  refine ⟨⟨lead, negative, gap, mark, r, explicit, body ++ trail, hparts, hlead,
    fun c hc => isSeparator_of_isBlank (hgap c hc), hmarked, hbody, ?_⟩, ?_⟩
  · rw [hdigits]
    exact (digitsOf_ne_nil hclass).mpr hdigit
  · rw [← hvalue]
    simp only [Typed.toInt, Typed.size, IntegerText.toInt, value_eq_denoted, hdigits]

end Numeral

namespace Preparation

open Literal (Builder)
open Numeral (Marked digitsOf isSeparator signText)

section Walk

variable {session : Radix} {known : String → Bool} {prev : Option Char} {rest : List Char}
  {p : Preparation} {ps : List Piece} {n : Nat} {us : List String}

/-- Separators where no number is open are passed over. -/
theorem reach_separators {cs : List Char} (hcs : ∀ c ∈ cs, isSeparator c = true)
    (hp : p.Holds (.new session) ps n us) :
    Reach session known prev cs rest p (Holds (.new session) ps n us) := by
  induction cs generalizing prev p with
  | nil => exact .refl hp
  | cons c cs ih =>
      rw [List.forall_mem_cons] at hcs
      exact Reach.trans (show Reach session known prev [c] (cs ++ rest) p _ from
        reach_separator hcs.1 hp) (fun q hq => ih hcs.2 hq)

/-- A marker in front of a body opens a number, and without a marker none is open. -/
theorem reach_mark {mark body : List Char} {r : Radix} {explicit : Bool}
    (hmark : Marked session mark r explicit body) (hp : p.Holds (.new session) ps n us)
    (hprev : Lexeme.opensWord prev = true) :
    Reach session known prev mark (body ++ rest) p
      (Holds ⟨session, r, if explicit then some [] else none, explicit⟩ ps n us) := by
  cases hmark with
  | plain => exact .refl hp
  | long r => exact reach_marker hp rfl (Builder.digits_of_new session) hprev r
  | @short d hd body =>
      rcases hp with ⟨hb, rfl, rfl, rfl⟩
      refine reach_of_moves (w := ['x']) (Lexeme.recognise_shortMarker hd hprev) (fun pos => ?_)
      have hgoes : p.builder.canContinue ⟨.marker, ['0', 'x'], pos⟩ = true := by
        rw [Builder.canContinue_eq, hb]
        rfl
      refine ⟨_, _, .taken (not_stays (by decide)) hgoes, fun q hq hd => ⟨?_, ?_, ?_, ?_⟩⟩
      · rw [hq, hb]
        rfl
      · rw [hd]
      · rw [hd]
      · rw [hd]

/-- Digits and separators go into the number that is open. Where none is, the first
    digit opens it. -/
theorem reach_body {body : List Char} {r : Radix} {current : Option (List Char)} {explicit : Bool}
    (hbody : ∀ c ∈ body, isSeparator c = true ∨ r.accepts c = true)
    (hnone : current = none → r = session ∧ explicit = false)
    (hrefused : ∀ t qs, ps ≠ .refused t :: qs)
    (hp : p.Holds ⟨session, r, current, explicit⟩ ps n us) :
    Reach session known prev body [] p fun q => ∃ collected,
      q.Holds ⟨session, r, collected, explicit⟩ ps n us ∧
        digitsOf (collected.getD []) = digitsOf (current.getD []) ++ digitsOf body := by
  induction body generalizing prev p current with
  | nil => exact .refl ⟨current, hp, (List.append_nil _).symm⟩
  | cons c body ih =>
      rw [List.forall_mem_cons] at hbody
      rcases hbody with ⟨hc, hbody⟩
      have hcons : digitsOf (c :: body) = digitsOf [c] ++ digitsOf body :=
        Numeral.digitsOf_append [c] body
      by_cases hpassed : current = none ∧ isSeparator c = true
      · -- Nothing is open yet, and the separator leaves it so.
        rcases hpassed with ⟨rfl, hsep⟩
        rcases hnone rfl with ⟨rfl, rfl⟩
        have hempty : digitsOf [c] = [] :=
          Numeral.digitsOf_separators (fun d hd => List.mem_singleton.mp hd ▸ hsep)
        rw [hcons, hempty, List.nil_append]
        refine Reach.trans (show Reach _ known prev [c] (body ++ []) p _ from
          reach_separator hsep hp) (fun q hq => ?_)
        exact ih hbody hnone hq
      -- The letter of a marker is neither a separator nor a digit, so no marker begins here.
      have hmarker : Lexeme.markerTail? prev (c :: (body ++ [])) = none := by
        refine Lexeme.markerTail?_eq_none (.inr (.inr ?_))
        rw [List.append_nil]
        intro d hd hletter
        exact Numeral.not_foreign (hbody d (List.mem_of_mem_head? hd))
          (List.mem_append_left [':', '-'] hletter)
      -- Separator or digit, the open number goes on with it.
      have htaken : ∃ kind, kind ≠ .marker ∧
          Lexeme.recognise prev (Builder.isHex ⟨session, r, current, explicit⟩) c (body ++ []) =
            some (kind, 0) ∧
          ∀ pos, Builder.canContinue ⟨session, r, current, explicit⟩ ⟨kind, [c], pos⟩ = true := by
        rcases hc with hsep | hdigit
        · refine ⟨.separator, by decide, Lexeme.recognise_separator hsep, fun pos => ?_⟩
          rw [Builder.canContinue_eq, Bool.or_eq_true]
          refine .inl (Option.isSome_iff_ne_none.mpr fun h => hpassed ⟨h, hsep⟩)
        · refine ⟨.digit, by decide, Lexeme.recognise_digit ?_ hmarker, fun pos => ?_⟩
          · by_cases hr : r = .hex
            · exact .inr ⟨beq_iff_eq.mpr hr, hr ▸ hdigit⟩
            · exact .inl (Radix.isDigit_of_accepts hr hdigit)
          · rw [Builder.canContinue_eq, Bool.or_eq_true]
            exact .inl hdigit
      rcases htaken with ⟨kind, hkind, hrec, hgoes⟩
      refine Reach.trans (show Reach session known prev [c] (body ++ []) p _ from
        reach_taken hp hrefused hkind hrec hgoes) (fun q hq => ?_)
      refine (ih hbody (fun h => absurd h (Option.some_ne_none _)) hq).mono ?_
      rintro q' ⟨collected, hq', hdigits⟩
      refine ⟨collected, hq', ?_⟩
      rw [hdigits, Option.getD_some, Numeral.digitsOf_append, List.append_assoc, hcons]

/-- The sign of a number as it stands in the row. -/
def signPieces (negative : Bool) : List Piece := if negative then [.operator ['-']] else []

theorem reach_signText (negative : Bool) (hp : p.Holds (.new session) [] n us) :
    Reach session known prev (signText negative) rest p
      (Holds (.new session) (signPieces negative) n us) := by
  cases negative with
  | false => exact .refl hp
  | true =>
      exact reach_sign hp (Builder.digits_of_new session) (by decide)
        (fun _ => Builder.takesSign_of_current_eq_none rfl) (.inr (.inl rfl))

end Walk

/-- A separator, and the sign, end no word. -/
theorem opensWord_of_signed {lead gap : List Char} (negative : Bool)
    (hlead : ∀ c ∈ lead, isSeparator c = true) (hgap : ∀ c ∈ gap, isSeparator c = true) :
    Lexeme.opensWord (lead ++ (signText negative ++ gap)).getLast? = true := by
  have hseparator : ∀ c, isSeparator c = true → Lexeme.opensWord (some c) = true := by
    intro c hc
    have hname : isNameChar c = false := by
      rw [← Bool.not_eq_true]
      intro hname
      rw [isSeparator, Text.isBlank_of_isNameChar hname, Bool.false_or, beq_iff_eq] at hc
      rw [hc] at hname
      exact absurd hname (by decide)
    have hpoint : (c == '.') = false := by
      rw [beq_eq_false_iff_ne]
      rintro rfl
      exact absurd hc (by decide)
    rw [Lexeme.opensWord, hname, hpoint]
    rfl
  have hall : ∀ c ∈ lead ++ (signText negative ++ gap), Lexeme.opensWord (some c) = true := by
    intro c hc
    rw [List.mem_append, List.mem_append] at hc
    rcases hc with hc | hc | hc
    · exact hseparator c (hlead c hc)
    · cases negative with
      | false => exact absurd hc List.not_mem_nil
      | true =>
          rw [List.mem_singleton.mp hc]
          decide
    · exact hseparator c (hgap c hc)
  rcases hlast : (lead ++ (signText negative ++ gap)).getLast? with _ | c
  · rfl
  · exact hall c (List.mem_of_getLast? hlast)

/-- The walk over a text that denotes an integer leaves the number open, with the
    sign in front and with all its digits. -/
theorem reach_integer {session : Radix} {text : List Char} (known : String → Bool)
    (t : Numeral.Typed session text) :
    Reach session known none text [] (start session) fun q => ∃ body,
      q.Holds ⟨session, t.radix, some body, t.explicit⟩ (signPieces t.negative) 0 [] ∧
        digitsOf body = digitsOf t.body := by
  rcases t with ⟨lead, negative, gap, mark, r, explicit, body, rfl, hlead, hgap, hmarked, hclass,
    hne⟩
  have hstart : (start session).Holds (.new session) [] 0 [] := ⟨rfl, rfl, rfl, rfl⟩
  have hprev := opensWord_of_signed negative hlead hgap
  rw [List.getLast?_append, List.getLast?_append, Option.or_assoc] at hprev
  have hrefused : ∀ s qs, signPieces negative ≠ .refused s :: qs := by
    intro s qs
    cases negative <;> simp only [signPieces, Bool.false_eq_true, if_true, if_false, ne_eq,
      List.cons.injEq, reduceCtorEq, false_and, not_false_eq_true]
  have hnone : (if explicit = true then some ([] : List Char) else none) = none →
      r = session ∧ explicit = false := by
    intro hopen
    cases hmarked with
    | plain => exact ⟨rfl, rfl⟩
    | long | short => cases hopen
  -- The parts are walked over as they stand: blanks, sign, blanks, marker, digits.
  refine (reach_separators hlead hstart).trans fun q hq => ?_
  refine (reach_signText negative hq).trans fun q hq => ?_
  refine (reach_separators hgap hq).trans fun q hq => ?_
  refine (reach_mark hmarked hq ?_).trans fun q hq => ?_
  · rw [Option.or_none]
    exact hprev
  refine (reach_body hclass hnone hrefused hq).mono ?_
  rintro q' ⟨collected, hq', hdigits⟩
  have hempty : digitsOf ((if explicit = true then some ([] : List Char) else none).getD []) =
      [] := by
    cases explicit <;> rfl
  rw [hempty, List.nil_append] at hdigits
  rcases collected with _ | collected
  · exact absurd hdigits.symm hne
  · exact ⟨collected, hq', hdigits⟩

end Preparation

namespace Prepared

open Numeral (Typed digitsOf signText)
open Preparation (signPieces)

/-- A text that denotes an integer is prepared as that integer in its base, with the
    sign in front. -/
theorem ofText_typed {session : Radix} {text : String} (t : Typed session text.toList)
    (registry : Registry) :
    Prepared.ofText registry session text = .ok ⟨String.ofList t.expression, []⟩ := by
  rcases Preparation.reach_integer registry.contains t 0 with
    ⟨q, hwalk, body, ⟨hbuilder, hpieces, hdepth, hnames⟩, hdigits⟩
  rw [List.append_nil, Preparation.walk_nil] at hwalk
  have hfinish : q.builder.finish.1 = some ⟨t.radix, t.explicit, body⟩ := by
    rw [hbuilder]
    rfl
  have hnormal : Literal.normal ⟨t.radix, t.explicit, body⟩ = t.literal.normal := by
    have hsame : Literal.digits ⟨t.radix, t.explicit, body⟩ = t.literal.digits := hdigits
    rw [Literal.normal, Literal.normal, hsame]
    rfl
  have hshown : q.shown = .number t.literal.normal :: signPieces t.negative := by
    rw [Preparation.shown, Literal.Builder.shown, hfinish, hpieces, ← hnormal]
  have hfull : ∀ literal, q.builder.finish.1 = some literal → literal.digits ≠ [] := by
    intro literal hliteral
    rw [hfinish, Option.some.injEq] at hliteral
    have hne := t.digits_ne_nil
    rw [← hdigits] at hne
    rw [← hliteral]
    exact hne
  rcases Preparation.finish_of_complete text.toList.length hfull
    (List.length_eq_zero_iff.mp hdepth) (by rw [hshown]; rfl) with ⟨d, hd, hdpieces, hdnames⟩
  have hwrite : Piece.write d.pieces.reverse = t.expression := by
    rw [hdpieces, hshown, Typed.expression]
    cases t.negative <;> rfl
  rw [Prepared.ofText, Preparation.draftOf_eq_walk, hwalk]
  simp only [hd, Except.map, Prepared.ofDraft, hwrite, hdnames, hnames]

end Prepared

end ExactCalc
