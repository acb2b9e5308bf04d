import ExactCalc.Proofs.Prepared.Growth
import ExactCalc.Proofs.Prepared.Reread
import Mathlib.Data.List.Basic

/-!
# Preparing a Prepared Expression

When the text of a prepared expression, prepared in its turn, comes out as it is.

Nearly always it does: the second walk meets the pieces of the first one after
the other, each where an operand may start, and what is written between them is
read as what it is. Two things are lost in the written form, though. A blank
that kept the sign of a sum apart from a number ending in the letter of a power
of ten is dropped, and the second walk takes the sign into that number; what
follows is then no operand of a sum any more. And a literal with a marker closes
at a sign, after which letters are digits again in a session of base sixteen,
even where a name was typed.

`Piece.carry` follows the first of these along a row and stops where the two
walks part. After the sign, another sign closes the number as it stood, and a
number without a marker is taken in whole if its digits belong to the base of
the number before; in both cases nothing is lost. Anything else is an operand
right behind a number, and the second walk multiplies. It has then written more
than it has read, and since it never writes less than it reads, its text is
another one.

## Main definitions

* `Piece.Carry`, `Piece.carry`: What a row hands on to its next piece.
* `Draft.Stable`: A draft along whose row the two walks do not part.
* `Preparation.Follows`: The second walk behind the first.

## Theorems

* `follows_step`, `follows_row`: The second walk follows a stable row.
* `ahead_step`, `ahead_row`: The second walk runs ahead of any other.
* `ofText_again_iff`: A prepared expression comes out as it is exactly if its
  draft is stable.
-/

namespace ExactCalc

open Literal (Fits Trails Chained)

namespace Piece

/-- What the end of a row hands on when the text is read again. -/
inductive Carry where
  /-- Nothing that matters to what comes next. -/
  | nothing
  /-- A number of the base that ends in the letter of a power of ten. -/
  | power (r : Radix)
  /-- A number of the base that has taken in the sign of a sum. -/
  | signed (r : Radix)
  deriving DecidableEq, Repr

/-- The base a number is written in. -/
def radixOf (t : List Char) : Radix :=
  ((Radix.splitLongMarker? t).map Prod.fst).getD .dec

/-- Whether an open number of the base takes in the whole text of another. -/
def goesInto (r : Radix) (t : List Char) : Bool :=
  (Radix.splitLongMarker? t).isNone && t.all fun c => !c.isDigit || r.accepts c

/-- What a number hands on that is read in a base. -/
def Carry.ofNumber (r : Radix) (t : List Char) : Carry :=
  if r ≠ .hex ∧ t.getLast? = some exponentLetter then .power r else .nothing

/-- What is handed on behind one more piece, if the two walks have not parted. -/
def Carry.step (session : Radix) : Carry → Piece → Option Carry
  | .signed r, .number t => if goesInto r t then some (.ofNumber r t) else none
  | .signed _, .operator _ => some .nothing
  | .signed _, _ => none
  | .power r, .operator s =>
    if s = ['+'] ∨ s = ['-'] then some (.signed r) else some .nothing
  | _, .number t => some (.ofNumber (radixOf t) t)
  | _, .constant t =>
    if session = .hex ∧ t.head?.any Radix.hex.accepts = true then none else some .nothing
  | _, _ => some .nothing

/-- What a row hands on, the last piece first, if the two walks have not parted. -/
def carry (session : Radix) : List Piece → Option Carry
  | [] => some .nothing
  | q :: ps => (carry session ps).bind (·.step session q)

end Piece

/-- A draft along whose row the two walks do not part: a sign behind a number that
    ends in the letter of a power of ten is followed by another sign or by a number
    that goes into that one, and in base sixteen no name begins with a digit. -/
def Draft.Stable (session : Radix) (d : Draft) : Prop :=
  (Piece.carry session d.pieces).isSome = true

instance (session : Radix) (d : Draft) : Decidable (d.Stable session) :=
  inferInstanceAs (Decidable (_ = true))

namespace Piece

theorem splitLongMarker?_of_chained {r : Radix} {last : Option Char} {ds : List Char}
    (h : Chained (Fits r) last ds) : Radix.splitLongMarker? ds = none := by
  rcases ds with _ | ⟨c, _ | ⟨d, ds⟩⟩
  · rfl
  · refine Radix.splitLongMarker?_eq_none (fun d hd => ?_)
    exact absurd hd (by simp only [List.head?_nil, Option.not_mem_none, not_false_eq_true])
  · refine Radix.splitLongMarker?_eq_none (fun e he => ?_)
    rw [List.head?_cons, Option.mem_some_iff] at he
    rw [← he]
    exact Preparation.not_markerLetter h.2.1

/-- Behind what ends no operand, a blank is written at most, and it is written
    only between two words. -/
theorem link_of_not_ends {q : Piece} {ps : List Piece} (hq : q.startsOperand = true)
    (hps : ends ps = false) :
    (link ps q = [' ']) ∨
      (link ps q = [] ∧ ∀ name qs, ps = .function name :: qs →
        name.getLast?.any isNameChar = true → q.text.head?.any isNameChar = false) := by
  cases ps with
  | nil => exact .inr ⟨rfl, fun _ _ h => (nomatch h)⟩
  | cons p ps =>
      rw [link_cons]
      cases p with
      | function name =>
          -- A function is the one piece that ends no operand and may end in a letter.
          have hspace : joint (.function name) q =
              if name.getLast?.any isNameChar && q.text.head?.any isNameChar then [' ']
              else [] := by
            unfold joint
            rw [hq]
            rfl
          rw [hspace]
          by_cases hwords : (name.getLast?.any isNameChar && q.text.head?.any isNameChar) = true
          · rw [if_pos hwords]
            exact .inl rfl
          · rw [if_neg hwords]
            refine .inr ⟨rfl, fun other qs h hlast => ?_⟩
            rw [List.cons.injEq, Piece.function.injEq] at h
            rw [h.1, hlast, Bool.true_and, Bool.not_eq_true] at hwords
            exact hwords
      | operator | opening =>
          refine .inr ⟨?_, fun other qs h => ?_⟩
          · unfold joint
            rw [hq]
            rfl
          · exact absurd h
              (by simp only [List.cons.injEq, reduceCtorEq, false_and, not_false_eq_true])
      | number | refused | constant | closing =>
          exact absurd (show true = false from hps) (by decide)

theorem marker_ne_nil (r : Radix) : r.marker ≠ [] := by
  cases r <;> decide

theorem WellMade.text_ne_nil {session : Radix} {q : Piece} (h : WellMade session q) :
    q.text ≠ [] := by
  cases h with
  | number ht hne =>
      cases ht with
      | marked => exact List.append_ne_nil_of_left_ne_nil (marker_ne_nil _) _
      | plain => exact hne
  | refused => exact List.append_ne_nil_of_left_ne_nil (marker_ne_nil _) _
  | constant | root => exact List.cons_ne_nil _ _
  | called h =>
      have hall : ∀ name ∈ functionNames, name ≠ [] := by decide
      exact hall _ h

/-- A text behind a piece that the piece does not run on into. -/
def Stops (q : Piece) (rest : List Char) : Prop :=
  match q with
  | .number _ | .refused _ | .constant _ => ∀ d ∈ rest.head?, isNameChar d = false
  | .function t => t ≠ [rootSign] → ∀ d ∈ rest.head?, isNameChar d = false
  | _ => True

theorem radixOf_eq {session r : Radix} {t ds : List Char} (ht : NumberText session t r ds)
    (hds : Chained (Fits r) none ds) : radixOf t = r := by
  unfold radixOf
  cases ht with
  | marked => rw [Radix.splitLongMarker?_eq_some.mpr rfl]; rfl
  | plain => rw [splitLongMarker?_of_chained hds]; rfl

theorem getLast?_write {ps : List Piece} {q : Piece} (h : q.text ≠ []) :
    (write (q :: ps).reverse).getLast? = q.text.getLast? := by
  rw [write_reverse_cons, ← List.append_assoc, List.getLast?_append_of_ne_nil _ h]

/-- The character in front of an operand allows no power of ten, and where the
    operand starts with a word it opens one. -/
theorem fresh_link {session : Radix} {ps : List Piece} {n : Nat} {q : Piece}
    (hrow : Row session ps n) (hq : q.startsOperand = true) (hne : q.text ≠ []) :
    Lexeme.endsMantissa ((link ps q).getLast?.or (write ps.reverse).getLast?) = false ∧
      ((∀ c ∈ q.text.head?, isNameChar c = true) →
        Lexeme.opensWord ((link ps q).getLast?.or (write ps.reverse).getLast?) = true) := by
  by_cases hends : ends ps = true
  · rw [link_of_ends hq hends]
    exact ⟨by rfl, fun _ => by rfl⟩
  rcases link_of_not_ends hq (Bool.not_eq_true _ ▸ hends) with hlink | ⟨hlink, hword⟩
  · rw [hlink]
    exact ⟨by rfl, fun _ => by rfl⟩
  -- Nothing is written in between, so the character is the last of the row.
  rw [hlink, List.getLast?_nil, Option.none_or]
  cases hrow with
  | nil => exact ⟨rfl, fun _ => rfl⟩
  | @sign ps n c h hc =>
      have hall : ∀ c ∈ ['+', '-', '*', '/', '^'], Lexeme.endsMantissa (some c) = false ∧
          Lexeme.opensWord (some c) = true := Text.forall_of_all (by decide)
      rw [getLast?_write (show (operator [c]).text ≠ [] from List.cons_ne_nil _ _)]
      exact ⟨(hall _ hc).1, fun _ => (hall _ hc).2⟩
  | opening h =>
      rw [getLast?_write (show opening.text ≠ [] from List.cons_ne_nil _ _)]
      exact ⟨rfl, fun _ => rfl⟩
  | closing => exact absurd rfl hends
  | @made ps n p h hp =>
      rw [getLast?_write hp.text_ne_nil]
      cases hp with
      | root => exact ⟨by decide, fun _ => by decide⟩
      | @called name hname =>
          have hall : ∀ name ∈ functionNames, Lexeme.endsMantissa name.getLast? = false ∧
              name.getLast?.any isNameChar = true := by decide
          -- A function and a word are kept apart by a blank, which is not there.
          refine ⟨(hall name hname).1, fun hchars => ?_⟩
          have hnone := hword name ps rfl (hall name hname).2
          rcases htext : q.text with _ | ⟨c, cs⟩
          · exact absurd htext hne
          · rw [htext] at hnone hchars
            have hc := hchars c rfl
            rw [List.head?_cons, Option.any_some, hc] at hnone
            exact absurd hnone (by simp only [Bool.true_eq_false, not_false_eq_true])
      | number | refused | constant => exact absurd rfl hends

theorem write_number_append (ps : List Piece) {s : List Char} (t : List Char) (hs : s ≠ []) :
    write (.number (s ++ t) :: ps).reverse = write (.number s :: ps).reverse ++ t := by
  have hlink : link ps (.number (s ++ t)) = link ps (.number s) := by
    -- What is written in front of a number depends on its first character only.
    have hhead : (s ++ t).head? = s.head? := by
      cases s with
      | nil => exact absurd rfl hs
      | cons c cs => rfl
    cases ps with
    | nil => rfl
    | cons p ps =>
        rw [link_cons, link_cons]
        unfold joint
        simp only [text, startsOperand, hhead]
        rfl
  rw [write_reverse_cons, write_reverse_cons, hlink, text, text, List.append_assoc,
    List.append_assoc]

end Piece

namespace Preparation

open Piece (Row WellMade NumberText Carry undefinedIn ends link write radixOf goesInto carry)

/-- Where the second walk stands behind a row, and what it carries on. -/
inductive Stands (session : Radix) (p : Preparation) : List Piece → Carry → Prop where
  | settled {ps : List Piece} (hbuilder : p.builder = .new session)
      (hhead : p.draft.pieces.head? = ps.head?) : Stands session p ps .nothing
  | typing {t body : List Char} {ps : List Piece} (hcurrent : p.builder.current = some body)
      (hne : t ≠ []) (hlast : body.getLast? = t.getLast?)
      (hrefused : ∀ s qs, p.draft.pieces ≠ .refused s :: qs) :
      Stands session p (.number t :: ps) (.ofNumber p.builder.active t)
  | signed {c : Char} {body : List Char} {ps : List Piece}
      (hcurrent : p.builder.current = some body) (hc : c = '+' ∨ c = '-')
      (hlast : body.getLast? = some c) (hhex : p.builder.active ≠ .hex)
      (hrefused : ∀ s qs, p.draft.pieces ≠ .refused s :: qs) :
      Stands session p (.operator [c] :: ps) (.signed p.builder.active)

/-- The second walk behind a row of the first: it has written the same text, and
    left the same names undefined and as many brackets open. -/
structure Follows (session : Radix) (known : String → Bool) (ps : List Piece) (n : Nat)
    (k : Carry) (p : Preparation) : Prop where
  text : write p.shown.reverse = write ps.reverse
  depth : p.draft.openings.length = n
  names : p.draft.undefinedNames = undefinedIn known ps
  constants : undefinedIn known p.shown = undefinedIn known ps
  closes : p.builder.finish.2 = .new session
  digits : ∀ literal, p.builder.finish.1 = some literal → literal.digits ≠ []
  stands : Stands session p ps k

section Following

variable {session : Radix} {known : String → Bool} {ps : List Piece} {n m : Nat} {k k' : Carry}
  {p : Preparation} {q : Piece} {rest : List Char}

theorem Follows.holds (h : Follows session known ps n k p) :
    p.Holds p.builder p.draft.pieces n (undefinedIn known ps) :=
  ⟨rfl, rfl, h.depth, h.names⟩

/-- Where a sign has been taken in, the row ends in that sign, and the number it
    went into is open. -/
theorem Stands.of_signed {r : Radix} (h : Stands session p ps (.signed r)) :
    ∃ c body qs, ps = .operator [c] :: qs ∧ (c = '+' ∨ c = '-') ∧
      p.builder.current = some body ∧ body.getLast? = some c ∧ p.builder.active = r ∧
      r ≠ .hex ∧ ∀ s rs, p.draft.pieces ≠ .refused s :: rs := by
  generalize hk : Carry.signed r = k at h
  cases h with
  | settled => cases hk
  | typing =>
      rw [Carry.ofNumber] at hk
      split at hk <;> cases hk
  | signed hcurrent hc hlast hhex hrefused =>
      rw [Carry.signed.injEq] at hk
      exact ⟨_, _, _, rfl, hc, hcurrent, hlast, hk.symm, hk ▸ hhex, hrefused⟩

theorem shown_of_settled (h : p.builder = .new session) : p.shown = p.draft.pieces := by
  rw [shown, h]
  rfl

theorem shown_of_current {body : List Char} (h : p.builder.current = some body) :
    p.shown = .number (Literal.normal ⟨p.builder.active, p.builder.explicit, body⟩) ::
      p.draft.pieces := by
  rw [shown, Literal.Builder.shown, Literal.Builder.finish_of_current_eq_some h]

/-- A walk that has closed every number stands behind the piece it has added. -/
theorem follows_of_holds {qs : List Piece} {us : List String}
    (h : p.Holds (.new session) (q :: qs) n us)
    (htext : write qs.reverse ++ link qs q = write ps.reverse ++ link ps q)
    (hnames : us = undefinedIn known (q :: ps))
    (hconstants : undefinedIn known (q :: qs) = undefinedIn known (q :: ps)) :
    Follows session known (q :: ps) n .nothing p := by
  rcases h with ⟨hbuilder, hpieces, rfl, rfl⟩
  have hshown : p.shown = q :: qs := by rw [shown_of_settled hbuilder, hpieces]
  refine ⟨?_, rfl, hnames, ?_, ?_, ?_, .settled hbuilder ?_⟩
  · rw [hshown, Piece.write_reverse_cons, Piece.write_reverse_cons, ← List.append_assoc, htext,
      List.append_assoc]
  · rw [hshown, hconstants]
  · rw [hbuilder]
    rfl
  · rw [hbuilder]
    exact Literal.Builder.digits_of_new session
  · rw [hpieces]
    rfl

/-- Unless a sign has been taken in, an operand ends where it does in the row. -/
theorem ends_shown (h : Follows session known ps n k p) (hk : ∀ r, k ≠ .signed r) :
    ends p.shown = ends ps := by
  rcases h.stands with ⟨hbuilder, hhead⟩ | ⟨hcurrent, -, -, -⟩ | ⟨hcurrent, -, -, -, -⟩
  · rw [shown_of_settled hbuilder, ends, ends, hhead]
  · rw [shown_of_current hcurrent]
    rfl
  · exact absurd rfl (hk _)

theorem normal_append (r : Radix) (explicit : Bool) (body : List Char) {ds : List Char}
    (hds : ds.filter (!Numeral.isSeparator ·) = ds) :
    Literal.normal ⟨r, explicit, body ++ ds⟩ = Literal.normal ⟨r, explicit, body⟩ ++ ds := by
  unfold Literal.normal Literal.digits
  rw [List.filter_append, hds]
  split
  · rw [List.append_assoc]
  · rfl

theorem normal_ne_nil {l : Literal} (h : l.digits ≠ []) : l.normal ≠ [] := by
  unfold Literal.normal
  split
  · exact List.append_ne_nil_of_right_ne_nil _ h
  · exact h

/-- What is typed behind the open number is written behind it. -/
theorem reach_behind {body ds : List Char} (h : Follows session known ps n k p)
    (hcurrent : p.builder.current = some body)
    (hrefused : ∀ s qs, p.draft.pieces ≠ .refused s :: qs)
    (hlast : body.getLast? = (write ps.reverse).getLast?)
    (hds : Chained (Fits p.builder.active) body.getLast? ds) (hne : ds ≠ [])
    (hrest : ds.getLast? = some '0' → ∀ d ∈ rest.head?, d ∉ ['b', 'o', 'd', 'x']) :
    Reach session known (write ps.reverse).getLast? ds rest p (fun r =>
      r.builder = { p.builder with current := some (body ++ ds) } ∧
      r.draft.pieces = p.draft.pieces ∧ write r.shown.reverse = write ps.reverse ++ ds ∧
      r.draft.openings.length = n ∧ r.draft.undefinedNames = undefinedIn known ps ∧
      undefinedIn known r.shown = undefinedIn known ps ∧ r.builder.finish.2 = .new session ∧
      ∀ literal, r.builder.finish.1 = some literal → literal.digits ≠ []) := by
  have hp := h.holds
  have hbody : p.builder.current.getD [] = body := by rw [hcurrent]; rfl
  have hreach : Reach session known (write ps.reverse).getLast? ds rest p
      (Holds { p.builder with current := some (p.builder.current.getD [] ++ ds) } p.draft.pieces n
        (undefinedIn known ps)) :=
    reach_typed hp hrefused (by rw [hbody]; exact hds) (.inl (by rw [hbody]; exact hlast)) hne hrest
  rw [hbody] at hreach
  refine hreach.mono (fun r hr => ?_)
  -- No separator is typed, so the written form grows by what is typed.
  have hfilter := filter_of_chained hds
  have hopen : r.builder.current = some (body ++ ds) := by rw [hr.builder]
  have hdigits := h.digits _ (by rw [Literal.Builder.finish_of_current_eq_some hcurrent])
  have hshown : r.shown = .number
      (Literal.normal ⟨p.builder.active, p.builder.explicit, body⟩ ++ ds) :: p.draft.pieces := by
    rw [shown_of_current hopen, hr.builder, hr.pieces, normal_append _ _ _ hfilter]
  refine ⟨hr.builder, hr.pieces, ?_, hr.depth, hr.names, ?_, ?_, ?_⟩
  · rw [hshown, Piece.write_number_append _ _ (normal_ne_nil hdigits), ← shown_of_current hcurrent,
      h.text]
  · rw [hshown, ← h.constants, shown_of_current hcurrent]
    rfl
  · rw [Literal.Builder.finish_of_current_eq_some hopen, hr.builder, ← h.closes,
      Literal.Builder.finish_of_current_eq_some hcurrent]
  · rw [Literal.Builder.finish_of_current_eq_some hopen, hr.builder]
    intro literal hliteral
    rw [← Option.some.inj hliteral, Literal.digits, List.filter_append]
    exact List.append_ne_nil_of_left_ne_nil hdigits _

/-- A sign that no number takes in. -/
theorem follows_sign_closed {c : Char} (h : Follows session known ps n k p)
    (hc : c ∈ ['+', '-', '*', '/', '^'])
    (htakes : ∀ pos, p.builder.takesSign ⟨.operator, [c], pos⟩ = false)
    (hplace : c = '+' ∨ c = '-' ∨ ends p.shown = true) (prev : Option Char) :
    Reach session known prev [c] rest p
      (Follows session known (.operator [c] :: ps) n .nothing) := by
  have hp := h.holds
  refine (reach_sign hp h.digits hc htakes hplace).mono (fun r hr => ?_)
  rw [h.closes] at hr
  refine follows_of_holds hr ?_ rfl h.constants
  rw [Piece.link_of_not_starts _ rfl, Piece.link_of_not_starts _ rfl]
  exact congrArg (· ++ []) h.text

theorem follows_sign_taken {c : Char} {t body : List Char}
    (h : Follows session known (.number t :: ps) n k p)
    (hcurrent : p.builder.current = some body) (hne : t ≠ [])
    (hlast : body.getLast? = t.getLast?) (hrefused : ∀ s qs, p.draft.pieces ≠ .refused s :: qs)
    (hhex : p.builder.active ≠ .hex) (hpower : t.getLast? = some exponentLetter)
    (hc : c = '+' ∨ c = '-') :
    Reach session known (write (Piece.number t :: ps).reverse).getLast? [c] rest p
      (Follows session known (.operator [c] :: .number t :: ps) n (.signed p.builder.active)) := by
  have hwritten : (write (Piece.number t :: ps).reverse).getLast? = t.getLast? :=
    Piece.getLast?_write hne
  have hfits : Chained (Fits p.builder.active) body.getLast? [c] :=
    ⟨.sign hhex hc (hlast.trans hpower), trivial⟩
  have hzero : [c].getLast? = some '0' → ∀ d ∈ rest.head?, d ∉ ['b', 'o', 'd', 'x'] := by
    intro hlast
    rw [List.getLast?_singleton, Option.some.injEq] at hlast
    rw [hlast] at hc
    exact absurd hc (by decide)
  refine (reach_behind h hcurrent hrefused (hlast.trans hwritten.symm) hfits
    (List.cons_ne_nil _ _) hzero).mono (fun r hr => ?_)
  rcases hr with ⟨hbuilder, hpieces, htext, hdepth, hnames, hconstants, hcloses, hdigits⟩
  have hactive : r.builder.active = p.builder.active := by rw [hbuilder]
  have hopen : r.builder.current = some (body ++ [c]) := by rw [hbuilder]
  rw [← hactive]
  refine ⟨?_, hdepth, hnames, hconstants, hcloses, hdigits,
    .signed hopen hc (List.getLast?_concat ..) ?_ ?_⟩
  · rw [htext, Piece.write_reverse_cons (Piece.number t :: ps), Piece.link_of_not_starts _ rfl]
    rfl
  · rw [hactive]
    exact hhex
  · rw [hpieces]
    exact hrefused

/-- A sign is read as one, or taken into the number that asks for it. -/
theorem follows_sign {c : Char} (h : Follows session known ps n k p)
    (hc : c ∈ ['+', '-', '*', '/', '^']) (hplace : c = '+' ∨ c = '-' ∨ ends ps = true)
    (hk : k.step session (.operator [c]) = some k') :
    Reach session known (write ps.reverse).getLast? [c] rest p
      (Follows session known (.operator [c] :: ps) n k') := by
  -- Unless a number that is open takes the sign, it is added as a piece of its own.
  have hclosed : (∀ pos, p.builder.takesSign ⟨.operator, [c], pos⟩ = false) →
      (c = '+' ∨ c = '-' ∨ ends p.shown = true) → k' = .nothing →
      Reach session known (write ps.reverse).getLast? [c] rest p
        (Follows session known (.operator [c] :: ps) n k') := by
    rintro htakes hplace' rfl
    exact follows_sign_closed h hc htakes hplace' _
  rcases h.stands with ⟨hbuilder, hhead⟩ | ⟨hcurrent, hne, hlast, hrefused⟩ |
    ⟨hcurrent, hsigned, hlast, hhex, hrefused⟩
  · -- No number is open.
    have hends := ends_shown h (fun r => by simp)
    refine hclosed (fun pos => ?_) (hends ▸ hplace) (Option.some.inj hk).symm
    rw [hbuilder]
    exact Literal.Builder.takesSign_of_current_eq_none rfl
  · rename_i t body ps
    have hends : ends p.shown = true := by rw [shown_of_current hcurrent]; rfl
    by_cases hpower : p.builder.active ≠ .hex ∧ t.getLast? = some exponentLetter
    · rw [Carry.ofNumber, if_pos hpower] at hk
      by_cases hplus : c = '+' ∨ c = '-'
      · simp only [Carry.step, List.cons.injEq, and_true, hplus, if_true] at hk
        rw [← Option.some.inj hk]
        exact follows_sign_taken h hcurrent hne hlast hrefused hpower.1 hpower.2 hplus
      · rw [not_or] at hplus
        refine hclosed (takesSign_of_ne hplus.1 hplus.2) (.inr (.inr hends)) ?_
        simp only [Carry.step, List.cons.injEq, and_true, hplus.1, hplus.2, or_self,
          if_false] at hk
        exact (Option.some.inj hk).symm
    · -- The number does not end in the letter of a power, so no sign belongs to it.
      rw [Carry.ofNumber, if_neg hpower] at hk
      refine hclosed (fun pos => ?_) (.inr (.inr hends)) (Option.some.inj hk).symm
      rw [← Bool.not_eq_true, Literal.Builder.takesSign_eq_true]
      rintro ⟨hhex, -, other, hother, hexp⟩
      rw [hcurrent, Option.some.injEq] at hother
      rw [← hother, hlast] at hexp
      exact hpower ⟨hhex, hexp⟩
  · -- The number ends in a sign already, and a second one closes it.
    refine hclosed (fun pos => ?_) ?_ (Option.some.inj hk).symm
    · rw [← Bool.not_eq_true, Literal.Builder.takesSign_eq_true]
      rintro ⟨-, -, other, hother, hexp⟩
      rw [hcurrent, Option.some.injEq] at hother
      rw [← hother, hlast, Option.some.injEq] at hexp
      rw [hexp] at hsigned
      exact absurd hsigned (by decide)
    · rw [shown_of_current hcurrent]
      exact .inr (.inr rfl)

theorem follows_closing (h : Follows session known ps (n + 1) k p) (hends : ends ps = true)
    (hk : k.step session .closing = some k') (prev : Option Char) :
    Reach session known prev [')'] rest p (Follows session known (.closing :: ps) n k') := by
  have hunsigned : ∀ r, k ≠ .signed r := by
    rintro r rfl
    cases hk
  have hk' : k' = .nothing := by
    cases k <;> first | exact (Option.some.inj hk).symm | exact absurd rfl (hunsigned _)
  have hshown := (ends_shown h hunsigned).trans hends
  refine (reach_closing h.holds h.digits rfl hshown).mono (fun r hr => ?_)
  rw [h.closes] at hr
  rw [hk']
  refine follows_of_holds hr ?_ rfl h.constants
  rw [Piece.link_of_not_starts _ rfl, Piece.link_of_not_starts _ rfl]
  exact congrArg (· ++ []) h.text

/-- The second walk where an operand may start: the pieces it has, and how they
    are written in front of the operand. -/
structure Ready (session : Radix) (known : String → Bool) (ps : List Piece) (n : Nat) (q : Piece)
    (qs : List Piece) (p : Preparation) : Prop where
  holds : p.Holds (.new session) qs n (undefinedIn known ps)
  ends : ends qs = false
  text : write qs.reverse ++ link qs q = write ps.reverse ++ link ps q
  constants : undefinedIn known qs = undefinedIn known ps

theorem link_congr {qs : List Piece} (h : qs.head? = ps.head?) : link qs q = link ps q := by
  cases qs <;> cases ps <;> simp only [List.head?_nil, List.head?_cons, reduceCtorEq,
    Option.some.injEq] at h
  · rfl
  · rw [Piece.link_cons, Piece.link_cons, h]

theorem link_operator (s : List Char) (qs : List Piece) (q : Piece) :
    link (.operator s :: qs) q = [] := by
  rw [Piece.link_cons]
  unfold Piece.joint
  cases q.startsOperand <;> rfl

/-- What is written between a row and an operand leads to where it may start. -/
theorem reach_ready (h : Follows session known ps n k p) (hk : ∀ r, k ≠ .signed r)
    (hq : q.startsOperand = true) (prev : Option Char) :
    Reach session known prev (link ps q) rest p
      (fun r => ∃ qs, Ready session known ps n q qs r) := by
  by_cases hends : ends ps = true
  · -- The multiplication sign is read as one more sign of the row.
    rw [Piece.link_of_ends hq hends]
    have hshown := (ends_shown h hk).trans hends
    refine (reach_sign h.holds h.digits (by decide) (takesSign_of_ne (by decide) (by decide))
      (.inr (.inr hshown))).mono (fun r hr => ?_)
    refine ⟨.operator ['*'] :: p.shown, h.closes ▸ hr, rfl, ?_, h.constants⟩
    rw [Piece.write_reverse_cons, link_operator, Piece.link_of_not_starts _ rfl,
      Piece.link_of_ends hq hends, List.append_nil, List.nil_append]
    exact congrArg (· ++ ['*']) h.text
  · -- At most a blank is written, and the walk has no number open that it could end.
    rw [Bool.not_eq_true] at hends
    have hsettled : p.builder = .new session ∧ p.draft.pieces.head? = ps.head? := by
      rcases h.stands with ⟨hbuilder, hhead⟩ | ⟨hcurrent, -, -, -⟩ | ⟨hcurrent, -, -, -, -⟩
      · exact ⟨hbuilder, hhead⟩
      · exact absurd (show true = false from hends) (by decide)
      · exact absurd rfl (hk _)
    rcases hsettled with ⟨hbuilder, hhead⟩
    have hshown := shown_of_settled hbuilder
    have hready : ∀ r : Preparation,
        r.Holds (.new session) p.draft.pieces n (undefinedIn known ps) →
        ∃ qs, Ready session known ps n q qs r := by
      intro r hr
      refine ⟨p.draft.pieces, hr, ?_, ?_, ?_⟩
      · rw [ends, hhead]
        exact hends
      · rw [link_congr hhead, ← hshown, h.text]
      · rw [← hshown, h.constants]
    have hp : p.Holds (.new session) p.draft.pieces n (undefinedIn known ps) :=
      ⟨hbuilder, rfl, h.depth, h.names⟩
    rcases Piece.link_of_not_ends hq hends with hlink | ⟨hlink, -⟩
    · rw [hlink]
      exact (reach_separator (by decide) hp).mono hready
    · rw [hlink]
      exact .refl (hready p hp)

theorem Ready.not_refused {qs : List Piece} (h : Ready session known ps n q qs p) :
    ∀ s rs, qs ≠ .refused s :: rs := by
  rintro s rs rfl
  exact absurd (show true = false from h.ends) (by decide)

/-- The letter of a marker begins a word, and so does every other letter. -/
theorem not_markerLetter_of_stops (h : ∀ d ∈ rest.head?, isNameChar d = false) :
    ∀ d ∈ rest.head?, d ∉ ['b', 'o', 'd', 'x'] := by
  intro d hd hmem
  have hall : ∀ d ∈ ['b', 'o', 'd', 'x'], isNameChar d = true := Text.forall_of_all (by decide)
  have hchar := h d hd
  rw [hall d hmem] at hchar
  exact absurd hchar (by simp only [Bool.true_eq_false, not_false_eq_true])

/-- Where an operand may start, a number is read back and stays open. -/
theorem follows_number {qs : List Piece} {prev : Option Char} {r : Radix} {t ds : List Char}
    (h : Ready session known ps n (.number t) qs p) (ht : NumberText session t r ds) (hne : ds ≠ [])
    (hds : Chained (Fits r) none ds) (hmantissa : Lexeme.endsMantissa prev = false)
    (hword : (∀ c ∈ t.head?, isNameChar c = true) → Lexeme.opensWord prev = true)
    (hrest : ∀ d ∈ rest.head?, isNameChar d = false) :
    Reach session known prev t rest p
      (Follows session known (.number t :: ps) n (.ofNumber r t)) := by
  have hletter := not_markerLetter_of_stops hrest
  have hnumber : ∃ explicit, Literal.normal ⟨r, explicit, ds⟩ = t ∧
      Reach session known prev t rest p
        (Holds ⟨session, r, some ds, explicit⟩ qs n (undefinedIn known ps)) :=
    reach_number h.holds h.not_refused ht hne hds hmantissa hword hletter
  rcases hnumber with ⟨explicit, hnormal, hreach⟩
  have htext : t ≠ [] := (WellMade.number ht hne hds).text_ne_nil
  have hlast : ds.getLast? = t.getLast? := by
    cases ht with
    | marked => exact (List.getLast?_append_of_ne_nil _ hne).symm
    | plain => rfl
  -- The number is still open, and shown as if it were closed it is the piece that was written.
  refine hreach.mono (fun w hw => ?_)
  have hcurrent : w.builder.current = some ds := by rw [hw.builder]
  have hshown : w.shown = .number t :: qs := by
    rw [shown_of_current hcurrent, hw.builder, hw.pieces, hnormal]
  have hactive : w.builder.active = r := by rw [hw.builder]
  rw [← hactive]
  refine ⟨?_, hw.depth, hw.names, ?_, ?_, ?_, .typing hcurrent htext hlast ?_⟩
  · rw [hshown, Piece.write_reverse_cons, Piece.write_reverse_cons, ← List.append_assoc, h.text,
      List.append_assoc]
  · rw [hshown]
    exact h.constants
  · rw [hw.builder]
    rfl
  · rw [hw.builder]
    intro literal hliteral
    rw [← Option.some.inj hliteral, Literal.digits, filter_of_chained hds]
    exact hne
  · rw [hw.pieces]
    exact h.not_refused

/-- Where an operand may start, a name is read back, unless it begins with a
    digit of the session. -/
theorem follows_constant {qs : List Piece} {prev : Option Char} {t : List Char}
    (h : Ready session known ps n (.constant t) qs p) (ht : WellMade session (.constant t))
    (hmantissa : Lexeme.endsMantissa prev = false)
    (hhex : ¬(session = .hex ∧ t.head?.any Radix.hex.accepts = true))
    (hrest : ∀ d ∈ rest.head?, isNameChar d = false) :
    Reach session known prev t rest p (Follows session known (.constant t :: ps) n .nothing) := by
  have hletters : (Literal.Builder.new session).isHex = true →
      ∀ e ∈ t.head?, Radix.hex.accepts e = false := by
    intro hsession e he
    rw [Literal.Builder.isHex, Literal.Builder.active_new, beq_iff_eq] at hsession
    rw [Option.mem_def] at he
    rw [he, Option.any_some, hsession] at hhex
    rw [← Bool.not_eq_true]
    exact fun hdigit => hhex ⟨rfl, hdigit⟩
  have hreach : Reach session known prev t rest p
      (Holds (.new session) (.constant t :: qs) n (undefinedIn known (.constant t :: qs))) :=
    reach_constant h.holds (Literal.Builder.digits_of_new session) ht hrest hmantissa hletters
      h.constants.symm
  have hconstants : undefinedIn known (.constant t :: qs) =
      undefinedIn known (.constant t :: ps) := by
    rw [undefinedIn, undefinedIn, h.constants]
  exact hreach.mono (fun w hw => follows_of_holds hw h.text hconstants hconstants)

/-- Where an operand may start, it is read back as what it is. -/
theorem follows_made {qs : List Piece} {prev : Option Char} (h : Ready session known ps n q qs p)
    (hq : WellMade session q) (hmantissa : Lexeme.endsMantissa prev = false)
    (hword : (∀ c ∈ q.text.head?, isNameChar c = true) → Lexeme.opensWord prev = true)
    (hk : Carry.nothing.step session q = some k') (hrest : q.Stops rest) :
    Reach session known prev q.text rest p (Follows session known (q :: ps) n k') := by
  have hnone := Literal.Builder.digits_of_new session
  cases hq with
  | @number r t ds ht hne hds =>
      have hk' : k' = .ofNumber r t := by
        rw [← Piece.radixOf_eq ht hds]
        exact (Option.some.inj hk).symm
      rw [hk']
      exact follows_number h ht hne hds hmantissa hword hrest
  | @refused r ds es e hds he hr hs hes =>
      have hreach : Reach session known prev (r.marker ++ (ds ++ e :: es)) rest p
          (Holds (.new session) (.refused (r.marker ++ (ds ++ e :: es)) :: qs) n
            (undefinedIn known ps)) :=
        reach_refused h.holds h.not_refused (.refused hds he hr hs hes) (hword (head_marker r _))
      rw [← Option.some.inj hk]
      exact hreach.mono (fun w hw => follows_of_holds hw h.text rfl h.constants)
  | @constant c cs hc hcs hname =>
      simp only [Carry.step] at hk
      split at hk
      · cases hk
      · rename_i hhex
        rw [← Option.some.inj hk]
        exact follows_constant h (.constant hc hcs hname) hmantissa hhex hrest
  | root =>
      have hreach : Reach session known prev [rootSign] rest p
          (Holds (.new session) (.function [rootSign] :: qs) n (undefinedIn known ps)) :=
        reach_function h.holds hnone .root hrest
      rw [← Option.some.inj hk]
      exact hreach.mono (fun w hw => follows_of_holds hw h.text rfl h.constants)
  | @called name hname =>
      have hreach : Reach session known prev name rest p
          (Holds (.new session) (.function name :: qs) n (undefinedIn known ps)) :=
        reach_function h.holds hnone (.called hname) hrest
      rw [← Option.some.inj hk]
      exact hreach.mono (fun w hw => follows_of_holds hw h.text rfl h.constants)

theorem follows_merged {r : Radix} {t : List Char} (h : Follows session known ps n (.signed r) p)
    (ht : WellMade session (.number t)) (hinto : goesInto r t = true)
    (hrest : ∀ d ∈ rest.head?, isNameChar d = false) :
    Reach session known (write ps.reverse).getLast? t rest p
      (Follows session known (.number t :: ps) n (.ofNumber r t)) := by
  rw [goesInto, Bool.and_eq_true, Option.isNone_iff_eq_none, List.all_eq_true] at hinto
  rcases h.stands.of_signed with ⟨c, body, qs, rfl, hsign, hcurrent, hlast, rfl, hhex, hrefused⟩
  -- A number with a marker goes into no other, so this one is decimal.
  have hchained : Chained (Fits p.builder.active) body.getLast? t ∧ t ≠ [] := by
    cases ht with
    | number ht hne hds =>
        cases ht with
        | marked =>
            rw [Radix.splitLongMarker?_eq_some.mpr rfl] at hinto
            cases hinto.1
        | plain =>
            refine ⟨(hds.of_accepts hhex (fun d hd hdigit => ?_)).of_none _, hne⟩
            have haccepts := hinto.2 d hd
            rwa [hdigit, Bool.not_true, Bool.false_or] at haccepts
  rcases hchained with ⟨hds, hne⟩
  have hwritten : (write (Piece.operator [c] :: qs).reverse).getLast? = some c :=
    Piece.getLast?_write (show (Piece.operator [c]).text ≠ [] from List.cons_ne_nil _ _)
  refine (reach_behind h hcurrent hrefused (hlast.trans hwritten.symm) hds hne
    (fun _ => not_markerLetter_of_stops hrest)).mono (fun w hw => ?_)
  rcases hw with ⟨hbuilder, hpieces, htext, hdepth, hnames, hconstants, hcloses, hdigits⟩
  have hactive : w.builder.active = p.builder.active := by rw [hbuilder]
  have hopen : w.builder.current = some (body ++ t) := by rw [hbuilder]
  have hend : (body ++ t).getLast? = t.getLast? := List.getLast?_append_of_ne_nil _ hne
  rw [← hactive]
  refine ⟨?_, hdepth, hnames, hconstants, hcloses, hdigits, .typing hopen hne hend ?_⟩
  · rw [htext, Piece.write_reverse_cons (Piece.operator [c] :: qs), link_operator]
    rfl
  · rw [hpieces]
    exact hrefused

/-- A piece that starts an operand, behind a row that no sign was taken from. -/
theorem step_unsigned (hk : ∀ r, k ≠ .signed r) (hq : q.startsOperand = true) :
    k.step session q = Carry.nothing.step session q := by
  cases k with
  | nothing => rfl
  | power r => cases q <;> first | rfl | exact absurd hq Bool.false_ne_true
  | signed r => exact absurd rfl (hk r)

/-- The second walk follows the first by one more piece. -/
theorem follows_step (hrow : Row session ps n) (h : Follows session known ps n k p)
    (hq : Row session (q :: ps) m) (hk : k.step session q = some k') (hrest : q.Stops rest) :
    Reach session known (write ps.reverse).getLast? (link ps q ++ q.text) rest p
      (Follows session known (q :: ps) m k') := by
  cases hq with
  | sign hps hc hplace =>
      rw [hps.unique hrow, Piece.link_of_not_starts _ rfl]
      exact follows_sign h hc hplace hk
  | closing hps hends =>
      rw [hrow.unique hps] at h
      rw [Piece.link_of_not_starts _ rfl]
      exact follows_closing h hends hk _
  | opening hps =>
      have hunsigned : ∀ r, k ≠ .signed r := by
        rintro r rfl
        cases hk
      rw [step_unsigned hunsigned rfl] at hk
      rw [hps.unique hrow, ← Option.some.inj hk]
      refine (reach_ready h hunsigned rfl _).trans (fun w hw => ?_)
      rcases hw with ⟨qs, hw⟩
      refine (reach_opening hw.holds (Literal.Builder.digits_of_new session)).mono (fun v hv => ?_)
      exact follows_of_holds hv hw.text rfl hw.constants
  | made hps hq =>
      rw [hps.unique hrow]
      -- Behind a sign that was taken in, only a number that goes into the open one is left.
      by_cases hsigned : ∃ r, k = .signed r
      · rcases hsigned with ⟨r, rfl⟩
        rcases h.stands.of_signed with ⟨c, -, qs, hqs, -⟩
        have hlink : link ps q = [] := by rw [hqs, link_operator]
        rw [hlink, List.nil_append]
        cases q with
        | number t =>
            simp only [Carry.step] at hk
            split at hk
            · rename_i hinto
              rw [← Option.some.inj hk]
              exact follows_merged h hq hinto hrest
            · cases hk
        | operator | opening | closing => cases hq
        | _ => cases hk
      · have hunsigned : ∀ r, k ≠ .signed r := fun r hr => hsigned ⟨r, hr⟩
        have hstarts : q.startsOperand = true := by cases hq <;> rfl
        rcases Piece.fresh_link hrow hstarts hq.text_ne_nil with ⟨hmantissa, hword⟩
        rw [step_unsigned hunsigned hstarts] at hk
        refine (reach_ready h hunsigned hstarts _).trans (fun w hw => ?_)
        rcases hw with ⟨qs, hw⟩
        exact follows_made hw hq hmantissa hword hk hrest

/-- A sign or a closing bracket is no part of a word. -/
theorem head_of_not_starts (hq : Row session (q :: ps) m) (hstarts : q.startsOperand = false)
    (rest : List Char) : ∀ d ∈ (link ps q ++ q.text ++ rest).head?, isNameChar d = false := by
  rw [Piece.link_of_not_starts _ hstarts]
  intro d hd
  cases hq with
  | @sign _ _ c h hc =>
      have hall : ∀ c ∈ ['+', '-', '*', '/', '^'], isNameChar c = false :=
        Text.forall_of_all (by decide)
      simp only [Piece.text, List.nil_append, List.cons_append, List.head?_cons,
        Option.mem_some_iff] at hd
      rw [← hd]
      exact hall c hc
  | closing h =>
      simp only [Piece.text, List.nil_append, List.cons_append, List.head?_cons,
        Option.mem_some_iff] at hd
      rw [← hd]
      decide
  | opening => exact absurd hstarts (by decide)
  | made _ hmade => cases hmade <;> exact absurd (show true = false from hstarts) (by decide)

/-- No piece runs on into what is written behind it. -/
theorem stops_link {r : Piece} {qs : List Piece} (hq : Row session (q :: r :: qs) m)
    (rest : List Char) : r.Stops (link (r :: qs) q ++ q.text ++ rest) := by
  by_cases hnot : q.startsOperand = false
  · have hhead := head_of_not_starts hq hnot rest
    cases r <;> first | exact hhead | exact fun _ => hhead | trivial
  have hstarts : q.startsOperand = true := Bool.not_eq_false _ ▸ hnot
  -- Behind an operand stands a multiplication sign, behind a word a blank.
  have hstar : ∀ d ∈ (['*'] ++ q.text ++ rest).head?, isNameChar d = false := by
    intro d hd
    rw [← Option.some.inj hd]
    decide
  cases r with
  | number | refused | constant =>
      rw [Piece.link_of_ends hstarts rfl]
      exact hstar
  | operator | opening | closing => trivial
  | function name =>
      intro hroot d hd
      have hnames : name.getLast?.any isNameChar = true ∧ q.text ≠ [] := by
        have hne : q.text ≠ [] := by
          cases hq with
          | made _ hq => exact hq.text_ne_nil
          | opening => exact List.cons_ne_nil _ _
          | sign | closing => exact absurd (show false = true from hstarts) Bool.false_ne_true
        refine ⟨?_, hne⟩
        rcases hq.tail with ⟨l, hrow⟩
        rcases (hrow.of_made rfl (by simp)).2 with
          _ | _ | _ | _ | hname
        · exact absurd rfl hroot
        · have hall : ∀ name ∈ functionNames, name.getLast?.any isNameChar = true := by decide
          exact hall name hname
      have hends : ends (.function name :: qs) = false := rfl
      rcases Piece.link_of_not_ends hstarts hends with hlink | ⟨hlink, hword⟩
      · rw [hlink] at hd
        rw [← Option.some.inj hd]
        decide
      · rw [hlink, List.nil_append] at hd
        have hnone := hword name qs rfl hnames.1
        rcases htext : q.text with _ | ⟨e, es⟩
        · exact absurd htext hnames.2
        · rw [htext, List.cons_append, List.head?_cons, Option.mem_some_iff] at hd
          rw [htext, List.head?_cons, Option.any_some, hd] at hnone
          exact hnone

theorem stops_tail (hrow : Row session (q :: ps) n) (rest : List Char) :
    ∀ r ∈ ps.head?, r.Stops (link ps q ++ q.text ++ rest) := by
  intro r hr
  cases ps with
  | nil => exact absurd hr (by simp only [List.head?_nil, Option.not_mem_none, not_false_eq_true])
  | cons s qs =>
      rw [List.head?_cons, Option.mem_some_iff] at hr
      rw [← hr]
      exact stops_link hrow rest

/-- The second walk follows the first as long as they have not parted. -/
theorem follows_row (hrow : Row session ps n) (hk : carry session ps = some k)
    (hrest : ∀ q ∈ ps.head?, q.Stops rest) :
    Reach session known none (write ps.reverse) rest (start session)
      (Follows session known ps n k) := by
  induction ps generalizing n k rest with
  | nil =>
      cases hrow
      rw [← Option.some.inj hk]
      exact .refl ⟨rfl, rfl, rfl, rfl, rfl, Literal.Builder.digits_of_new session, .settled rfl rfl⟩
  | cons q ps ih =>
      rcases Option.bind_eq_some_iff.mp hk with ⟨k₀, hps, hstep⟩
      rcases hrow.tail with ⟨n₀, hrow₀⟩
      have hstops := stops_tail hrow rest
      rw [Piece.write_reverse_cons]
      refine (ih hrow₀ hps hstops).trans (fun w hw => ?_)
      rw [Option.or_none]
      exact follows_step hrow₀ hw hrow hstep (hrest q rfl)

/-- Whatever a walk over the text ends with, it has written more than the text
    and a given weight before it. -/
def Ahead (session : Radix) (known : String → Bool) (prev : Option Char) (text : List Char)
    (p : Preparation) (w : Nat) : Prop :=
  ∀ pos p', walk session known prev pos text p = .ok p' →
    w + weight text < weight (write p'.shown.reverse)

/-- A walk that has got ahead stays ahead. -/
theorem ahead_of_reach {prev : Option Char} {text : List Char} {w : Nat}
    (h : Reach session known prev text rest p
      (fun r => w + weight text < weight (write r.shown.reverse))) :
    Ahead session known prev (text ++ rest) p w := by
  intro pos p' hwalk
  rcases h pos with ⟨r, hstep, hr⟩
  rw [hstep] at hwalk
  have hle := weight_walk hwalk
  rw [weight_append]
  omega

/-- An operand behind the number that took the sign in is multiplied with it. -/
theorem weight_behind {b : Literal.Builder} {us : List String} {r : Preparation}
    (hr : r.Holds b (q :: p.shown) n us) (hb : b.finish.1 = none) (hq : q.startsOperand = true)
    (hends : ends p.shown = true) :
    weight (write p.shown.reverse) + weight q.text < weight (write r.shown.reverse) := by
  have hshown : r.shown = q :: p.shown := by
    rw [shown, hr.builder, hr.pieces, Literal.Builder.shown, hb]
  -- The sign of multiplication is what the second walk has written more.
  have hstar : weight ['*'] = 1 := by decide
  rw [hshown, Piece.weight_cons, Piece.link_of_ends hq hends, hstar]
  omega

/-- A marker behind the number that took the sign in starts another. -/
theorem ahead_marker {prev : Option Char} (h : Follows session known ps n k p)
    (hends : ends p.shown = true) (hprev : Lexeme.opensWord prev = true) (r : Radix)
    (more : List Char) :
    Ahead session known prev (r.marker ++ more) p (weight (write ps.reverse)) := by
  have hp := h.holds
  refine ahead_of_reach ((reach_marker hp h.closes h.digits hprev r).mono (fun w hw => ?_))
  have hcurrent : w.builder.current = some [] := by rw [hw.builder]
  have hstar : weight ['*'] = 1 := by decide
  have hlink := Piece.link_of_ends (q := .number (Literal.normal
    ⟨w.builder.active, w.builder.explicit, []⟩)) rfl hends
  rw [← h.text, shown_of_current hcurrent, hw.pieces, Piece.weight_cons]
  change _ < weight (write p.shown.reverse) + (weight (link p.shown _) + _)
  rw [hlink, Piece.text, weight_normal, weight_marker, hstar, hw.builder]
  simp only [Bool.true_or, if_true]
  omega

/-- A digit that the open number has not in its base, but the session has, starts
    another number. -/
theorem reach_otherNumber {e : Char} {prev : Option Char} {body : List Char}
    (hcurrent : p.builder.current = some body)
    (hdigits : ∀ literal, p.builder.finish.1 = some literal → literal.digits ≠ [])
    (hrefused : ∀ s qs, p.draft.pieces ≠ .refused s :: qs) (he : e.isDigit = true)
    (hactive : p.builder.active.accepts e = false)
    (hnew : p.builder.finish.2 = .new session) (hsession : session.accepts e = true) :
    Reach session known prev [e] rest p (fun r =>
      weight (write p.shown.reverse) + weight [e] < weight (write r.shown.reverse)) := by
  have hclass := class_of_foreign he hactive
  have hmarker : Lexeme.markerTail? prev (e :: ([] ++ rest)) = none :=
    Lexeme.markerTail?_eq_none (.inl hclass.1)
  refine reach_of_moves (w := []) (Lexeme.recognise_digit (.inl he) hmarker) (fun pos => ?_)
  have hstays : ¬p.Stays ⟨.digit, [e], pos⟩ := not_stays_of_pieces hrefused
  have hgoes : p.builder.canContinue ⟨.digit, [e], pos⟩ = false := by
    rw [Literal.Builder.canContinue_eq, takesSign_of_ne hclass.2.1 hclass.2.2, Bool.or_false]
    exact hactive
  have hnext : p.builder.finish.2.canContinue ⟨.digit, [e], pos⟩ = true := by
    rw [Literal.Builder.canContinue_eq, hnew, Bool.or_eq_true]
    exact .inl hsession
  rcases closes_shown ⟨.digit, [e], pos⟩ true hdigits with ⟨d, hd, hpieces, -, -⟩
  refine ⟨_, d, .opened d hstays hgoes hnext hd, fun r hr hrd => ?_⟩
  rw [hnew, absorb_of_ne_marker (by simp)] at hr
  have hopen : r.builder.current = some [e] := by rw [hr]; rfl
  have hstar : weight ['*'] = 1 := by decide
  have hends : ends p.shown = true := by rw [shown_of_current hcurrent]; rfl
  have hle := weight_body_le r.builder.active r.builder.explicit [e]
  rw [shown_of_current hopen, hrd, hpieces, Piece.weight_cons, Piece.link_of_ends rfl hends, hstar,
    Piece.text]
  omega

theorem all_of_goesInto {r : Radix} {t : List Char} {prev : Option Char}
    (ht : Chained (Fits .dec) prev t) (hinto : goesInto r t = false) :
    t.all (fun c => !c.isDigit || r.accepts c) = false := by
  rwa [goesInto, Piece.splitLongMarker?_of_chained ht, Option.isNone_none, Bool.true_and] at hinto

theorem exists_first {f : Char → Bool} {t : List Char} (h : t.all f = false) :
    ∃ as e bs, t = as ++ e :: bs ∧ (∀ c ∈ as, f c = true) ∧ f e = false := by
  rcases hdrop : t.dropWhile f with _ | ⟨e, bs⟩
  · have hsplit := List.takeWhile_append_dropWhile (p := f) (l := t)
    rw [hdrop, List.append_nil] at hsplit
    have hall := List.all_takeWhile (p := f) (l := t)
    rw [hsplit, h] at hall
    exact absurd hall Bool.false_ne_true
  · have hhead := List.head?_dropWhile_not f t
    rw [hdrop] at hhead
    refine ⟨t.takeWhile f, e, bs, ?_, List.all_eq_true.mp List.all_takeWhile, hhead⟩
    rw [← hdrop, List.takeWhile_append_dropWhile]

/-- Digits that the open number takes in, and behind them one that it does not,
    with which another number starts. -/
theorem reach_foreignDigit {c e : Char} {body as : List Char}
    (h : Follows session known (.operator [c] :: ps) n k p)
    (hcurrent : p.builder.current = some body) (hlast : body.getLast? = some c)
    (hrefused : ∀ s qs, p.draft.pieces ≠ .refused s :: qs)
    (has : Chained (Fits p.builder.active) body.getLast? as) (he : e.isDigit = true)
    (hactive : p.builder.active.accepts e = false) (hsession : session.accepts e = true) :
    Reach session known (write (Piece.operator [c] :: ps).reverse).getLast? (as ++ [e]) rest p
      (fun r => weight (write (Piece.operator [c] :: ps).reverse) + weight (as ++ [e]) <
        weight (write r.shown.reverse)) := by
  have hwritten : (write (Piece.operator [c] :: ps).reverse).getLast? = some c :=
    Piece.getLast?_write (show (Piece.operator [c]).text ≠ [] from List.cons_ne_nil _ _)
  have hletter := Radix.not_markerLetter_of_isDigit he
  -- The digits before go into the open number, if there are any.
  rcases as with _ | ⟨a, as⟩
  · rw [← h.text]
    exact reach_otherNumber hcurrent h.digits hrefused he hactive h.closes hsession
  · have hzero : (a :: as).getLast? = some '0' →
        ∀ d ∈ ([e] ++ rest).head?, d ∉ ['b', 'o', 'd', 'x'] := by
      intro _ d hd
      rw [List.cons_append, List.head?_cons, Option.mem_some_iff] at hd
      rwa [← hd]
    refine (reach_behind h hcurrent hrefused (hlast.trans hwritten.symm) has
      (List.cons_ne_nil _ _) hzero).trans (fun w hw => ?_)
    rcases hw with ⟨hbuilder, hpieces, hwrite, -, -, -, hcloses, hdigits⟩
    have hopen : w.builder.current = some (body ++ a :: as) := by rw [hbuilder]
    have hother : w.builder.active.accepts e = false := by rw [hbuilder]; exact hactive
    rw [← hpieces] at hrefused
    refine (reach_otherNumber hopen hdigits hrefused he hother hcloses hsession).mono
      (fun v hv => ?_)
    rw [hwrite, weight_append] at hv
    rw [weight_append]
    omega

theorem ahead_unmerged {r : Radix} {t : List Char}
    (h : Follows session known ps n (.signed r) p) (ht : WellMade session (.number t))
    (hinto : goesInto r t = false) :
    Ahead session known (write ps.reverse).getLast? (t ++ rest) p (weight (write ps.reverse)) := by
  rcases h.stands.of_signed with ⟨c, body, qs, rfl, hsign, hcurrent, hlast, rfl, hhex, hrefused⟩
  rcases ht with @⟨r', t, ds, ht, hne, hds⟩ | _ | _ | _ | _
  cases ht with
  | marked =>
      -- The sign before it opens a word, so the marker is recognised.
      have hends : ends p.shown = true := by rw [shown_of_current hcurrent]; rfl
      have hopens :
          Lexeme.opensWord (write (Piece.operator [c] :: qs).reverse).getLast? = true := by
        rw [Piece.getLast?_write (show (Piece.operator [c]).text ≠ [] from List.cons_ne_nil _ _)]
        rcases hsign with rfl | rfl <;> decide
      rw [List.append_assoc]
      exact ahead_marker h hends hopens _ _
  | plain _ hsession =>
      -- The walks part at the first digit that is foreign to the open number.
      rcases exists_first (all_of_goesInto hds hinto) with ⟨as, e, bs, htext, has, he⟩
      rw [Bool.or_eq_false_iff, Bool.not_eq_false'] at he
      have hchained : Chained (Fits p.builder.active) body.getLast? as := by
        rw [htext] at hds
        refine ((Literal.chained_append.mp hds).1.of_accepts hhex (fun d hd hdigit => ?_)).of_none _
        have haccepts := has d hd
        rwa [hdigit, Bool.not_true, Bool.false_or] at haccepts
      have hdec : session.accepts e = true := by
        rw [hsession]
        exact (Radix.accepts_of_isDigit he.1).1
      have hwhole : t ++ rest = as ++ [e] ++ (bs ++ rest) := by
        rw [htext]
        simp only [List.append_assoc, List.cons_append, List.nil_append]
      rw [hwhole]
      exact ahead_of_reach
        (reach_foreignDigit h hcurrent hlast hrefused hchained he.1 he.2 hdec)

theorem ahead_hexName {t : List Char} {prev : Option Char} (h : Follows session known ps n k p)
    (hk : ∀ r, k ≠ .signed r) (ht : WellMade session (.constant t)) (hsession : session = .hex)
    (hhex : t.head?.any Radix.hex.accepts = true) :
    Ahead session known prev (link ps (.constant t) ++ t ++ rest) p
      (weight (write ps.reverse)) := by
  rcases ht with _ | _ | @⟨c, cs, hc, hcs, hname⟩ | _ | _
  rw [List.head?_cons, Option.any_some] at hhex
  -- The first letter opens a number, and the number is written with a marker.
  have hzero : c ≠ '0' := by
    rintro rfl
    exact absurd hc (by decide)
  have hreach : Reach session known prev (link ps (.constant (c :: cs)) ++ [c]) (cs ++ rest) p
      (fun r => weight (write ps.reverse) + weight (link ps (.constant (c :: cs)) ++ [c]) <
        weight (write r.shown.reverse)) := by
    refine (reach_ready h hk rfl prev).trans (fun w hw => ?_)
    rcases hw with ⟨qs, hw⟩
    have hbuilder : w.builder.isHex = true := by
      rw [hw.holds.builder, hsession]
      rfl
    have hmarker : Lexeme.markerTail? ((link ps (.constant (c :: cs))).getLast?.or prev)
        (c :: ([] ++ (cs ++ rest))) = none := Lexeme.markerTail?_eq_none (.inl hzero)
    refine reach_of_moves (w := []) (Lexeme.recognise_digit (.inr ⟨hbuilder, hhex⟩) hmarker)
      (fun pos => ?_)
    have hrefused : ∀ s rs, w.draft.pieces ≠ .refused s :: rs := by
      rw [hw.holds.pieces]
      exact hw.not_refused
    have hstays : ¬w.Stays ⟨.digit, [c], pos⟩ := not_stays_of_pieces hrefused
    have hgoes : w.builder.canContinue ⟨.digit, [c], pos⟩ = true := by
      rw [Literal.Builder.canContinue_eq, hw.holds.builder, hsession, Bool.or_eq_true]
      exact .inl hhex
    refine ⟨_, _, .taken hstays hgoes, fun r hr hrd => ?_⟩
    rw [hw.holds.builder, absorb_of_ne_marker (by simp)] at hr
    have hopen : r.builder.current = some [c] := by rw [hr]; rfl
    have hnormal : weight (Literal.normal ⟨r.builder.active, r.builder.explicit, [c]⟩) =
        3 + weight [c] := by
      rw [weight_normal, hr, hsession]
      rfl
    have hblank : weight (link qs (.constant (c :: cs))) = 0 := by
      rcases Piece.link_of_not_ends (q := .constant (c :: cs)) rfl hw.ends with hlink | ⟨hlink, -⟩
      · rw [hlink]; decide
      · rw [hlink]; rfl
    have hbefore := congrArg weight hw.text
    rw [weight_append, weight_append] at hbefore
    rw [shown_of_current hopen, hrd, hw.holds.pieces, Piece.weight_cons, Piece.text, hnormal,
      weight_append]
    omega
  have htext : link ps (.constant (c :: cs)) ++ c :: cs ++ rest =
      link ps (.constant (c :: cs)) ++ [c] ++ (cs ++ rest) := by
    simp only [List.append_assoc, List.cons_append, List.nil_append]
  rw [htext]
  exact ahead_of_reach hreach

/-- Behind a number that has taken a sign in, whatever the number does not go on
    with is multiplied with it. -/
theorem ahead_signed {r : Radix} (hrow : Row session ps n)
    (h : Follows session known ps n (.signed r) p) (hq : Row session (q :: ps) m)
    (hk : Carry.step session (.signed r) q = none) (hrest : q.Stops rest) :
    Ahead session known (write ps.reverse).getLast? (link ps q ++ q.text ++ rest) p
      (weight (write ps.reverse)) := by
  rcases h.stands.of_signed with ⟨c, body, qs, hqs, -, hcurrent, -, hactive, hhex, -⟩
  have hends : ends p.shown = true := by rw [shown_of_current hcurrent]; rfl
  have hlink : link ps q = [] := by rw [hqs, link_operator]
  have hfresh := Piece.fresh_link (q := q) hrow
  rw [hlink, List.getLast?_nil, Option.none_or] at hfresh
  rw [hlink, List.nil_append]
  -- Whatever is read as one piece stands right behind the number.
  have hbehind : ∀ us l, q.startsOperand = true →
      Reach session known (write ps.reverse).getLast? q.text rest p
        (Holds p.builder.finish.2 (q :: p.shown) l us) →
      Ahead session known (write ps.reverse).getLast? (q.text ++ rest) p
        (weight (write ps.reverse)) := by
    intro us l hstarts hreach
    refine ahead_of_reach (hreach.mono (fun w hw => ?_))
    rw [← h.text]
    exact weight_behind hw (by rw [h.closes]; rfl) hstarts hends
  cases hq with
  | sign => cases hk
  | closing _ hends' =>
      rw [hqs] at hends'
      exact absurd (show false = true from hends') Bool.false_ne_true
  | opening => exact hbehind _ _ rfl (reach_opening h.holds h.digits)
  | made hps hq =>
      rcases hfresh (by cases hq <;> rfl) hq.text_ne_nil with ⟨hmantissa, hword⟩
      cases hq with
      | @number r' t ds ht hne hds =>
          have hinto : goesInto r t = false := by
            rw [← Bool.not_eq_true]
            intro hinto
            simp only [Carry.step, hinto, if_true, reduceCtorEq] at hk
          exact ahead_unmerged h (.number ht hne hds) hinto
      | @refused r' ds es e =>
          rw [Piece.text, List.append_assoc]
          exact ahead_marker h hends (hword (head_marker r' _)) _ _
      | constant hc hcs hname =>
          refine hbehind _ _ rfl (reach_constant h.holds h.digits (.constant hc hcs hname) hrest
            hmantissa (fun htrue => ?_) h.constants.symm)
          rw [Literal.Builder.isHex, hactive, beq_iff_eq] at htrue
          exact absurd htrue hhex
      | root => exact hbehind _ _ rfl (reach_function h.holds h.digits .root hrest)
      | called hname =>
          exact hbehind _ _ rfl (reach_function h.holds h.digits (.called hname) hrest)

/-- Where no sign has been taken in, the walks can part at a name only. -/
theorem constant_of_step (hk : ∀ r, k ≠ .signed r) (hnone : k.step session q = none) :
    ∃ t, q = .constant t ∧ session = .hex ∧ t.head?.any Radix.hex.accepts = true := by
  cases q with
  | constant t =>
      rw [step_unsigned hk rfl] at hnone
      simp only [Carry.step] at hnone
      split at hnone
      · rename_i hhex
        exact ⟨t, rfl, hhex⟩
      · cases hnone
  | operator s =>
      cases k with
      | signed r => exact absurd rfl (hk r)
      | nothing => cases hnone
      | power r =>
          simp only [Carry.step] at hnone
          split at hnone <;> cases hnone
  | _ => cases k <;> first
      | exact absurd rfl (hk _)
      | cases hnone

/-- Where the two walks part, the second has written more than the first. -/
theorem ahead_step (hrow : Row session ps n) (h : Follows session known ps n k p)
    (hq : Row session (q :: ps) m) (hk : k.step session q = none) (hrest : q.Stops rest) :
    Ahead session known (write ps.reverse).getLast? (link ps q ++ q.text ++ rest) p
      (weight (write ps.reverse)) := by
  by_cases hsigned : ∃ r, k = .signed r
  · rcases hsigned with ⟨r, rfl⟩
    exact ahead_signed hrow h hq hk hrest
  · have hunsigned : ∀ r, k ≠ .signed r := fun r hr => hsigned ⟨r, hr⟩
    rcases constant_of_step hunsigned hk with ⟨t, rfl, hsession, hhex⟩
    have ht : WellMade session (.constant t) :=
      (hq.of_made rfl (by simp)).2
    exact ahead_hexName h hunsigned ht hsession hhex

/-- Behind the place where the walks part, the second stays ahead. -/
theorem ahead_row (hrow : Row session ps n) (hk : carry session ps = none)
    (hrest : ∀ q ∈ ps.head?, q.Stops rest) :
    Ahead session known none (write ps.reverse ++ rest) (start session) 0 := by
  induction ps generalizing n rest with
  | nil => cases hk
  | cons q ps ih =>
      rcases hrow.tail with ⟨n₀, hrow₀⟩
      have hstops := stops_tail hrow rest
      rw [Piece.write_reverse_cons, List.append_assoc]
      -- Either the walks have parted before, or they part at this piece.
      rcases hps : carry session ps with _ | k
      · exact ih hrow₀ hps hstops
      · rw [carry, hps, Option.bind_some] at hk
        intro pos p' hwalk
        rcases follows_row hrow₀ hps hstops pos with ⟨w, hreach, hw⟩
        rw [hreach, Option.or_none] at hwalk
        have hahead := ahead_step hrow₀ hw hrow hk (hrest q rfl) _ _ hwalk
        rw [weight_append, Nat.zero_add]
        exact hahead

end Following

theorem stops_nil (q : Piece) : q.Stops [] := by
  have hnone : ∀ d ∈ ([] : List Char).head?, isNameChar d = false :=
    fun d hd => absurd hd (by simp only [List.head?_nil, Option.not_mem_none, not_false_eq_true])
  cases q <;> first | exact hnone | exact fun _ => hnone | trivial

theorem isIncomplete_congr {d d' : Draft} (h : d.pieces.head? = d'.pieces.head?) :
    d.isIncomplete = d'.isIncomplete := by
  unfold Draft.isIncomplete
  revert h
  generalize d.pieces = ps
  generalize d'.pieces = ps'
  intro h
  rcases ps with _ | ⟨q, qs⟩ <;> rcases ps' with _ | ⟨r, rs⟩
  · rfl
  · cases h
  · cases h
  · rw [List.head?_cons, List.head?_cons, Option.some.injEq] at h
    rw [h]
    cases r <;> rfl

theorem complete_of_follows {session : Radix} {known : String → Bool} {d : Draft} {n : Nat}
    {k : Piece.Carry} {p : Preparation} (h : Follows session known d.pieces n k p)
    (hd : d.isIncomplete = false) :
    ({ p.draft with pieces := p.shown } : Draft).isIncomplete = false := by
  generalize hps : d.pieces = ps at h
  rcases h.stands with ⟨hbuilder, hhead⟩ | ⟨hcurrent, -, -, -⟩ | ⟨hcurrent, -, -, -, -⟩
  · rw [← hd]
    refine isIncomplete_congr ?_
    rw [shown_of_settled hbuilder, hhead, hps]
  · rw [shown_of_current hcurrent]
    rfl
  · rw [Draft.isIncomplete, hps] at hd
    exact absurd hd (by simp only [Bool.true_eq_false, not_false_eq_true])

theorem draftOf_of_stable {session : Radix} {known : String → Bool} {text : List Char} {d : Draft}
    (h : draftOf session known text = .ok d) (hd : d.Stable session) :
    ∃ d', draftOf session known (write d.pieces.reverse) = .ok d' ∧
      Prepared.ofDraft d' = Prepared.ofDraft d := by
  rcases row_of_draftOf h with ⟨hrow, hincomplete, hnames⟩
  rcases Option.isSome_iff_exists.mp hd with ⟨k, hk⟩
  have hreach : Reach session known none (write d.pieces.reverse) [] (start session)
      (Follows session known d.pieces 0 k) := follows_row hrow hk (fun q _ => stops_nil q)
  rcases hreach 0 with ⟨p, hwalk, hp⟩
  rw [List.append_nil, walk_nil] at hwalk
  -- The second walk ends as the first did: no bracket is open and nothing is missing.
  have hopenings : p.draft.openings = [] := List.eq_nil_of_length_eq_zero hp.depth
  rcases finish_of_complete (write d.pieces.reverse).length hp.digits hopenings
    (complete_of_follows hp hincomplete) with ⟨d', hfinish, hpieces, hundefined⟩
  refine ⟨d', ?_, ?_⟩
  · rw [draftOf_eq_walk, hwalk]
    exact hfinish
  · rw [Prepared.ofDraft, Prepared.ofDraft, hpieces, hp.text, hundefined, hp.names, hnames]

theorem draftOf_of_not_stable {session : Radix} {known : String → Bool} {text : List Char}
    {d d' : Draft} (h : draftOf session known text = .ok d) (hd : ¬d.Stable session)
    (hagain : draftOf session known (write d.pieces.reverse) = .ok d') :
    Prepared.ofDraft d' ≠ Prepared.ofDraft d := by
  rcases row_of_draftOf h with ⟨hrow, -, -⟩
  have hk : carry session d.pieces = none := by
    rw [Draft.Stable, Bool.not_eq_true, Option.isSome_eq_false_iff, Option.isNone_iff_eq_none] at hd
    exact hd
  have hahead : Ahead session known none (write d.pieces.reverse ++ []) (start session) 0 :=
    ahead_row hrow hk (fun q _ => stops_nil q)
  rw [List.append_nil] at hahead
  rw [draftOf_eq_walk] at hagain
  rcases hwalk : walk session known none 0 (write d.pieces.reverse) (start session) with e | p
  · rw [hwalk] at hagain
    cases hagain
  rw [hwalk] at hagain
  have hpieces := (closeLast_ok (finish_ok hagain).1).1
  -- The same text would weigh the same, and the second walk has written more.
  intro heq
  have htext := congrArg (fun q => q.expression.toList) heq
  simp only [Prepared.ofDraft, String.toList_ofList, hpieces] at htext
  have hlt := hahead 0 p hwalk
  rw [htext] at hlt
  omega

end Preparation

/-- A prepared expression, prepared again, comes out as it is, with the same
    names left undefined, exactly if its draft is stable. -/
theorem Prepared.ofText_again_iff (registry : Registry) (session : Radix) (text : String)
    (d : Draft) (h : Preparation.draftOf session registry.contains text.toList = .ok d) :
    Prepared.ofText registry session text = .ok (.ofDraft d) ∧
      (Prepared.ofText registry session (Prepared.ofDraft d).expression = .ok (.ofDraft d) ↔
        d.Stable session) := by
  have htext : (Prepared.ofDraft d).expression.toList = Piece.write d.pieces.reverse :=
    String.toList_ofList
  refine ⟨by rw [Prepared.ofText, h]; rfl, ?_⟩
  rw [Prepared.ofText, htext]
  constructor
  · intro hagain
    by_cases hd : d.Stable session
    · exact hd
    rcases hd' : Preparation.draftOf session registry.contains (Piece.write d.pieces.reverse)
      with e | d'
    · rw [hd'] at hagain
      cases hagain
    · rw [hd'] at hagain
      exact absurd (Except.ok.inj hagain) (Preparation.draftOf_of_not_stable h hd hd')
  · intro hd
    rcases Preparation.draftOf_of_stable h hd with ⟨d', hd', heq⟩
    rw [hd', ← heq]
    rfl

/-- The draft of `1E +x`, whose blank kept the sign out of the number. -/
def Draft.lostBlank : Draft :=
  ⟨[.constant ['x'], .operator ['+'], .number ['1', 'E']], ⟨4, 5⟩, [], ["x"]⟩

/-- Without its blank the text of `1E +x` is read as another sum. -/
theorem Prepared.lostBlank_again :
    Preparation.draftOf .dec Registry.standard.contains "1E +x".toList = .ok .lostBlank ∧
      Prepared.ofText Registry.standard .dec "1E +x" = .ok ⟨"1E+x", ["x"]⟩ ∧
      Prepared.ofText Registry.standard .dec "1E+x" ≠ .ok ⟨"1E+x", ["x"]⟩ := by
  have hdraft : Preparation.draftOf .dec Registry.standard.contains "1E +x".toList =
      .ok .lostBlank :=
    eq_ok_of_toOption (by decide +kernel)
  have hwritten : Prepared.ofDraft .lostBlank = ⟨"1E+x", ["x"]⟩ := by decide +kernel
  have hunstable : ¬ Draft.lostBlank.Stable .dec := by decide +kernel
  have hboth := ofText_again_iff Registry.standard .dec "1E +x" .lostBlank hdraft
  rw [hwritten] at hboth
  refine ⟨hdraft, hboth.1, fun hagain => ?_⟩
  exact hunstable (hboth.2.mp hagain)

end ExactCalc
