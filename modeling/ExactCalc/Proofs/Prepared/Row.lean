import ExactCalc.Proofs.Literal
import ExactCalc.Proofs.Prepared.Step

/-!
# Rows of Pieces

What the pieces of a prepared expression look like, whatever was typed.

Each piece is well made: a number is spelled the way the builder lets it be
typed, a refused one is a number up to the first digit that neither its own base
nor the base of the session has, a name and a function are words of their kind.
And each stands where it may: multiplications, divisions and powers behind an
operand, a closing bracket behind an operand that an open bracket precedes. The
names left undefined are those of the constants in the row.

The walk keeps more than that, since what a literal may take in next depends on
the character before, and separators may stand in between. While a literal is
open, the character before is the last of its body; behind a refused digit it is
the last of the refused text; elsewhere it allows no power of ten. One kind of
state keeps less and never ends well: behind a refused digit and a marker,
digits stay with the former, and the literal of the latter remains empty.

## Main definitions

* `Piece.WellMade`: What each kind of piece is made of.
* `Piece.Row`: Pieces that stand where they may.
* `Piece.undefinedIn`: The names that a row leaves undefined.
* `Preparation.Good`, `Preparation.Doomed`: What the walk keeps.

## Theorems

* `good_of_moves`: Every move keeps it.
* `good_of_finish`, `good_of_draftOf`: A walk that ends well has kept it.
* `row_of_draftOf`: The pieces of every prepared expression form a row.
-/

namespace ExactCalc

open Literal (Fits Trails Chained)

namespace Piece

/-- How a number of a base with certain digits is written in a session: with the
    marker of its base, or without one if both bases are ten. -/
inductive NumberText (session : Radix) : List Char → Radix → List Char → Prop where
  | marked (r : Radix) (ds : List Char) : NumberText session (r.marker ++ ds) r ds
  | plain (ds : List Char) (h : session = .dec) : NumberText session ds .dec ds

/-- What an operand or a function in a row is made of. -/
inductive WellMade (session : Radix) : Piece → Prop where
  | number {r : Radix} {t ds : List Char} (ht : NumberText session t r ds) (hne : ds ≠ [])
      (hds : Chained (Fits r) none ds) : WellMade session (.number t)
  | refused {r : Radix} {ds es : List Char} {e : Char} (hds : Chained (Fits r) none ds)
      (he : e.isDigit = true) (hr : r.accepts e = false) (hs : session.accepts e = false)
      (hes : Chained Trails (some e) es) :
      WellMade session (.refused (r.marker ++ (ds ++ e :: es)))
  | constant {c : Char} {cs : List Char} (hc : isNameStart c = true)
      (hcs : ∀ d ∈ cs, isNameChar d = true) (hname : c :: cs ∉ functionNames) :
      WellMade session (.constant (c :: cs))
  | root : WellMade session (.function [rootSign])
  | called {name : List Char} (h : name ∈ functionNames) : WellMade session (.function name)

/-- Whether an operand ends at the end of a row, the last piece first. -/
def ends (ps : List Piece) : Bool := ps.head?.any endsOperand

/-- Pieces that stand where they may, the last one first, with the number of
    brackets that are still open. -/
inductive Row (session : Radix) : List Piece → Nat → Prop where
  | nil : Row session [] 0
  | made {ps : List Piece} {n : Nat} {q : Piece} (h : Row session ps n)
      (hq : WellMade session q) : Row session (q :: ps) n
  | sign {ps : List Piece} {n : Nat} {c : Char} (h : Row session ps n)
      (hc : c ∈ ['+', '-', '*', '/', '^']) (hplace : c = '+' ∨ c = '-' ∨ ends ps = true) :
      Row session (.operator [c] :: ps) n
  | opening {ps : List Piece} {n : Nat} (h : Row session ps n) :
      Row session (.opening :: ps) (n + 1)
  | closing {ps : List Piece} {n : Nat} (h : Row session ps (n + 1)) (hends : ends ps = true) :
      Row session (.closing :: ps) n

/-- How many brackets are open can be told from the pieces. -/
theorem Row.unique {session : Radix} {ps : List Piece} {n m : Nat} (hn : Row session ps n)
    (hm : Row session ps m) : n = m := by
  induction hn generalizing m with
  | nil => cases hm; rfl
  | made _ hq ih =>
      cases hm with
      | made hm => exact ih hm
      | sign | opening | closing => cases hq
  | sign _ _ _ ih =>
      cases hm with
      | made _ hq => cases hq
      | sign hm => exact ih hm
  | opening _ ih =>
      cases hm with
      | made _ hq => cases hq
      | opening hm => rw [ih hm]
  | closing _ _ ih =>
      cases hm with
      | made _ hq => cases hq
      | closing hm => exact Nat.succ.inj (ih hm)

theorem Row.tail {session : Radix} {q : Piece} {ps : List Piece} {n : Nat}
    (h : Row session (q :: ps) n) : ∃ m, Row session ps m := by
  cases h with
  | made h | sign h | opening h | closing h => exact ⟨_, h⟩

/-- The names that a row leaves undefined, in order of first appearance. -/
def undefinedIn (known : String → Bool) : List Piece → List String
  | .constant t :: ps =>
    let name := String.ofList t
    let names := undefinedIn known ps
    if name != Variable.piName && !known name && !names.contains name then names ++ [name]
    else names
  | _ :: ps => undefinedIn known ps
  | [] => []

/-- An operand or a function at the end of a row is well made. -/
theorem Row.of_made {session : Radix} {q : Piece} {ps : List Piece} {n : Nat}
    (h : Row session (q :: ps) n) (hq : q.startsOperand = true) (hne : q ≠ .opening) :
    Row session ps n ∧ WellMade session q := by
  cases h with
  | made h hq => exact ⟨h, hq⟩
  | opening h => exact absurd rfl hne
  | sign | closing => exact absurd hq Bool.false_ne_true

/-- A refused number goes on with whatever can come behind a refused digit. -/
theorem WellMade.trail {session : Radix} {t : List Char} {c : Char}
    (h : WellMade session (.refused t)) (hc : Trails t.getLast? c) :
    WellMade session (.refused (t ++ [c])) := by
  cases h with
  | @refused r ds es e hds he hr hs hes =>
      have hlast : (r.marker ++ (ds ++ e :: es)).getLast? = es.getLast?.or (some e) := by
        rw [List.getLast?_append, List.getLast?_append, List.getLast?_cons]
        cases es.getLast? <;> rfl
      have htext : r.marker ++ (ds ++ e :: es) ++ [c] = r.marker ++ (ds ++ e :: (es ++ [c])) := by
        rw [List.append_assoc, List.append_assoc, List.cons_append]
      rw [hlast] at hc
      rw [htext]
      exact .refused hds he hr hs (Literal.chained_append_singleton.mpr ⟨hes, hc⟩)

/-- A literal that a builder has let be typed is written as a number. -/
theorem numberText_normal {session : Radix} {l : Literal}
    (h : l.explicit = false → l.radix = session) :
    NumberText session l.normal l.radix l.digits := by
  unfold Literal.normal
  split
  · exact .marked l.radix l.digits
  · rename_i hplain
    rw [Bool.or_eq_true, decide_eq_true_eq, not_or, Decidable.not_not,
      Bool.not_eq_true] at hplain
    rw [hplain.2]
    exact .plain l.digits ((h hplain.1).symm.trans hplain.2)

theorem NumberText.of_ne_dec {session r : Radix} {t ds : List Char}
    (h : NumberText session t r ds) (hdec : session ≠ .dec) : t = r.marker ++ ds := by
  cases h with
  | marked => rfl
  | plain _ hsession => exact absurd hsession hdec

theorem awaitsOperand_eq (d : Draft) : d.awaitsOperand = !ends d.pieces := by
  unfold Draft.awaitsOperand ends
  rcases d.pieces with _ | ⟨q, ps⟩
  · rfl
  · cases q <;> rfl

theorem ends_of_complete {d : Draft} (hne : d.pieces ≠ []) (hopening : d.endsOpening = false)
    (hincomplete : d.isIncomplete = false) : ends d.pieces = true := by
  unfold Draft.endsOpening at hopening
  unfold Draft.isIncomplete at hincomplete
  rcases hps : d.pieces with _ | ⟨q, ps⟩
  · exact absurd hps hne
  · rw [hps] at hopening hincomplete
    cases q with
    | opening => exact absurd hopening (by simp only [Bool.true_eq_false, not_false_eq_true])
    | operator | function =>
        exact absurd hincomplete (by simp only [Bool.true_eq_false, not_false_eq_true])
    | _ => rfl

theorem complete_of_ends {d : Draft} (h : ends d.pieces = true) :
    d.endsOpening = false ∧ d.isIncomplete = false := by
  unfold Draft.endsOpening Draft.isIncomplete
  rcases hps : d.pieces with _ | ⟨q, ps⟩
  · exact ⟨rfl, rfl⟩
  · rw [hps] at h
    cases q <;> first | exact ⟨rfl, rfl⟩ | exact absurd h Bool.false_ne_true

/-- A complete row without open brackets ends in an operand, if it is not empty. -/
theorem ends_of_closed {session : Radix} {d : Draft} (hrow : Row session d.pieces 0)
    (hincomplete : d.isIncomplete = false) (hne : d.pieces ≠ []) : ends d.pieces = true := by
  refine ends_of_complete hne ?_ hincomplete
  unfold Draft.endsOpening
  split
  · rename_i hpieces
    -- An opening bracket at the end would still be open.
    rw [hpieces] at hrow
    cases hrow with
    | made _ hq => cases hq
  · rfl

@[simp] theorem ends_cons (q : Piece) (ps : List Piece) : ends (q :: ps) = q.endsOperand := rfl

/-- Between two operands a multiplication sign is written. -/
theorem link_of_ends {q : Piece} {ps : List Piece} (hq : q.startsOperand = true)
    (hps : ends ps = true) : link ps q = ['*'] := by
  cases ps with
  | nil => exact absurd hps Bool.false_ne_true
  | cons p ps =>
      rw [ends_cons] at hps
      rw [link_cons]
      unfold joint
      rw [hq, hps]
      rfl

end Piece

namespace Literal

/-- The last character of a text is the last that is no separator, if it is none. -/
theorem getLast?_digits {l : Literal} {c : Char} (h : l.body.getLast? = some c)
    (hc : Numeral.isSeparator c = false) : l.digits.getLast? = some c := by
  rcases List.getLast?_eq_some_iff.mp h with ⟨init, hbody⟩
  rw [digits, hbody, List.filter_append, List.filter_cons_of_pos (by rw [hc]; rfl),
    List.filter_nil, List.getLast?_concat]

/-- What a builder holds while a literal is open: a body that the base in force
    lets be typed, and the character before as the last of it. -/
structure Builder.Typing (session : Radix) (prev : Option Char) (b : Builder) (body : List Char) :
    Prop where
  base : b.session = session
  implicit : b.explicit = false → b.active = session
  spelled : Chained (Fits b.active) none (digits ⟨b.active, b.explicit, body⟩)
  aligned : body.getLast? = prev ∨ (body = [] ∧ Lexeme.endsMantissa prev = false)

theorem endsMantissa_not_separator {c : Char} (h : Lexeme.endsMantissa (some c) = true) :
    Numeral.isSeparator c = false := by
  rw [Lexeme.endsMantissa, Bool.or_eq_true, beq_iff_eq] at h
  rcases h with h | rfl
  · exact Radix.isSeparator_of_accepts (Radix.accepts_of_isDigit h).2
  · decide

theorem Builder.Typing.push {session : Radix} {prev : Option Char} {b : Builder}
    {body : List Char} {c : Char} (h : b.Typing session prev body)
    (hc : Numeral.isSeparator c = true ∨
      Fits b.active (digits ⟨b.active, b.explicit, body⟩).getLast? c) :
    Builder.Typing session (some c) { b with current := some (body ++ [c]) } (body ++ [c]) := by
  refine ⟨h.base, h.implicit, ?_, .inl (List.getLast?_concat ..)⟩
  unfold digits
  rw [List.filter_append]
  rcases hc with hc | hc
  · rw [List.filter_cons_of_neg (by rw [hc]; decide), List.filter_nil, List.append_nil]
    exact h.spelled
  · rw [List.filter_cons_of_pos (by rw [hc.not_separator]; rfl), List.filter_nil,
      Literal.chained_append_singleton, Option.or_none]
    exact ⟨h.spelled, hc⟩

end Literal

namespace Preparation

open Piece (Row WellMade NumberText undefinedIn)

/-- What the walk keeps, given the character before and the text to come. -/
structure Good (session : Radix) (known : String → Bool) (prev : Option Char) (cs : List Char)
    (p : Preparation) : Prop where
  row : Row session p.draft.pieces p.draft.openings.length
  names : p.draft.undefinedNames = undefinedIn known p.draft.pieces
  fresh : p.builder.current = none → p.builder = .new session
  unglued : p.builder.current = none → ∀ t ps, p.draft.pieces ≠ .number t :: ps
  mantissa : p.builder.current = none → p.draft.endsRefused = false →
    Lexeme.endsMantissa prev = true → ∀ c ∈ cs.head?, isNameChar c = false
  typing : ∀ body, p.builder.current = some body →
    p.builder.Typing session prev body ∧ p.draft.endsRefused = false
  trail : ∀ t ps, p.draft.pieces = .refused t :: ps → Lexeme.endsMantissa prev = true →
    t.getLast? = prev

/-- A marker behind a refused digit: the literal it opens stays empty. -/
def Doomed (p : Preparation) : Prop :=
  p.draft.endsRefused = true ∧ ∃ body, p.builder.current = some body ∧
    body.filter (!Numeral.isSeparator ·) = []

section Moves

variable {session : Radix} {known : String → Bool} {prev : Option Char} {c : Char}
  {cs : List Char} {kind : Lexeme.Kind} {n pos : Nat} {p p' : Preparation}

theorem good_start (session : Radix) (known : String → Bool) (cs : List Char) :
    Good session known none cs (start session) where
  row := .nil
  names := rfl
  fresh _ := rfl
  unglued _ _ _ h := nomatch h
  mantissa _ _ h := absurd h Bool.false_ne_true
  typing _ h := nomatch h
  trail _ _ h := nomatch h

theorem endsRefused_addRefused {d : Draft} {l : Lexeme} (h : d.endsRefused = true) :
    (d.addRefused session l).endsRefused = true := by
  rcases Draft.pieces_of_endsRefused h with ⟨t, ps, hpieces⟩
  unfold Draft.addRefused
  rw [hpieces]
  rfl

/-- The open literal is closed only with digits, or in front of a refused one. -/
theorem not_closes_of_doomed {l : Lexeme} {opens : Bool} {d : Draft} (h : p.Doomed)
    (hstays : ¬p.Stays l) : ¬p.Closes l opens d := by
  rcases h with ⟨hrefused, body, hcurrent, hbody⟩
  have hfinish := Literal.Builder.finish_of_current_eq_some hcurrent
  intro hd
  cases hd with
  | nothing h =>
      rw [hfinish] at h
      cases h
  | number literal h hdigits =>
      rw [hfinish, Option.some.injEq] at h
      rw [← h] at hdigits
      exact hdigits hbody
  | bare literal h hdigits hkind => exact hstays ⟨hrefused, .inl hkind⟩

/-- Nothing comes of an empty literal. -/
theorem doomed_of_moves (h : p.Doomed)
    (hrec : Lexeme.Recognised prev p.builder.isHex c cs kind n)
    (hmove : Moves session known p ⟨kind, c :: cs.take n, pos⟩ p'.builder p'.draft) :
    p'.Doomed := by
  have hdoomed := h
  rcases h with ⟨hrefused, body, hcurrent, hbody⟩
  generalize hb : p'.builder = b at hmove
  generalize hd : p'.draft = d at hmove
  unfold Doomed
  rw [hb, hd]
  cases hmove with
  | glued hstays => exact ⟨endsRefused_addRefused hrefused, body, hcurrent, hbody⟩
  | taken hstays hgoes =>
      -- Nothing but separators has been typed, so no sign of a power goes on with it.
      have hexp : p.builder.endsInExponent = false := by
        rw [Literal.Builder.endsInExponent, hcurrent]
        refine beq_eq_false_iff_ne.mpr (fun hlast => ?_)
        have hdigits := Literal.getLast?_digits (l := ⟨.dec, false, body⟩) hlast (by decide)
        rw [Literal.digits, hbody] at hdigits
        cases hdigits
      rw [Literal.Builder.canContinue_eq, Literal.Builder.takesSign, hexp, Bool.and_false,
        Bool.or_false] at hgoes
      unfold Literal.Builder.goesOn at hgoes
      cases kind with
      | marker =>
          rw [Literal.Builder.isOpen, hcurrent] at hgoes
          exact absurd hgoes Bool.false_ne_true
      | separator =>
          cases hrec with
          | separator hsep =>
              refine ⟨hrefused, body ++ [c], ?_, ?_⟩
              · simp only [Literal.Builder.absorb, hcurrent, reduceCtorEq, if_false,
                  Option.getD_some, List.take_zero]
              · rw [List.filter_append, hbody, List.filter_cons_of_neg (by rw [hsep]; decide)]
                rfl
      | digit => exact absurd ⟨hrefused, .inl rfl⟩ hstays
      | point => exact absurd ⟨hrefused, .inr (.inl rfl)⟩ hstays
      | exponent => exact absurd ⟨hrefused, .inr (.inr rfl)⟩ hstays
      | _ => exact absurd hgoes Bool.false_ne_true
  | opened _ hstays hgoes hnext hd => exact absurd hd (not_closes_of_doomed hdoomed hstays)
  | added d' _ hstays hgoes hnext hd hadd => exact absurd hd (not_closes_of_doomed hdoomed hstays)

/-- Behind a refused digit no literal is open. -/
theorem Good.current_of_endsRefused (h : Good session known prev cs p)
    (hrefused : p.draft.endsRefused = true) : p.builder.current = none := by
  rcases hcurrent : p.builder.current with _ | body
  · rfl
  · rw [(h.typing body hcurrent).2] at hrefused
    exact absurd hrefused Bool.false_ne_true

theorem good_glued (h : Good session known prev (c :: cs) p)
    (hrec : Lexeme.Recognised prev p.builder.isHex c cs kind n)
    (hstays : p.Stays ⟨kind, c :: cs.take n, pos⟩) (hbuilder : p'.builder = p.builder)
    (hdraft : p'.draft = p.draft.addRefused session ⟨kind, c :: cs.take n, pos⟩) :
    Good session known (c :: cs.take n).getLast? (cs.drop n) p' := by
  have hcurrent := h.current_of_endsRefused hstays.1
  rcases Draft.pieces_of_endsRefused hstays.1 with ⟨t, ps, hpieces⟩
  have hrow := h.row
  rw [hpieces] at hrow
  rcases hrow.of_made rfl (by simp) with ⟨hps, ht⟩
  -- A session that refuses a decimal digit has no letters for digits.
  have hhex : p.builder.isHex = false := by
    cases ht with
    | refused _ he _ hs _ =>
        rw [h.fresh hcurrent, Literal.Builder.isHex, Literal.Builder.active_new]
        exact beq_eq_false_iff_ne.mpr (Radix.refuses_isDigit he hs).2
  have hone : c :: cs.take n = [c] ∧ Trails t.getLast? c := by
    have htrail := h.trail t ps hpieces
    rcases hstays with ⟨-, hkind⟩
    cases hrec with
    | point hc => exact ⟨rfl, .point hc⟩
    | digit hc =>
        rcases hc with hc | ⟨hc, -⟩
        · exact ⟨rfl, .digit hc⟩
        · rw [hhex] at hc
          exact absurd hc Bool.false_ne_true
    | exponent _ hc hprev =>
        rw [htrail hprev]
        exact ⟨rfl, .exponent hc hprev⟩
    | _ => simp only [reduceCtorEq, or_self] at hkind
  rw [hone.1] at hdraft ⊢
  have hpieces' : p'.draft.pieces = .refused (t ++ [c]) :: ps := by
    rw [hdraft, Draft.addRefused, hpieces]
  have hrest : p'.draft.openings = p.draft.openings ∧
      p'.draft.undefinedNames = p.draft.undefinedNames := by
    rw [hdraft, Draft.addRefused, hpieces]
    exact ⟨rfl, rfl⟩
  have hnames := h.names
  rw [hpieces] at hnames
  constructor
  · rw [hpieces', hrest.1]
    exact .made hps (ht.trail hone.2)
  · rw [hrest.2, hpieces', hnames]
    rfl
  · rw [hbuilder]
    exact h.fresh
  · intro _ u us heq
    rw [hpieces'] at heq
    cases heq
  · intro _ hends
    rw [Draft.endsRefused, hpieces'] at hends
    exact absurd hends (by simp only [Bool.true_eq_false, not_false_eq_true])
  · rw [hbuilder, hcurrent]
    intro body hbody
    cases hbody
  · intro u us heq _
    rw [hpieces', List.cons.injEq, Piece.refused.injEq] at heq
    rw [← heq.1, List.getLast?_concat]
    rfl

theorem typing_new (session : Radix) :
    Literal.Builder.Typing session none (.new session) [] where
  base := rfl
  implicit _ := rfl
  spelled := trivial
  aligned := .inl rfl

/-- While a literal is typed, the row behind it waits. -/
theorem good_of_typing {body : List Char}
    (hrow : Row session p.draft.pieces p.draft.openings.length)
    (hnames : p.draft.undefinedNames = undefinedIn known p.draft.pieces)
    (hrefused : p.draft.endsRefused = false) (hcurrent : p.builder.current = some body)
    (htyping : p.builder.Typing session prev body) : Good session known prev cs p := by
  have hclosed : p.builder.current ≠ none := by
    rw [hcurrent]
    simp
  refine ⟨hrow, hnames, fun h => absurd h hclosed, fun h => absurd h hclosed,
    fun h => absurd h hclosed, fun other hother => ?_, fun t ps heq => ?_⟩
  · rw [hcurrent, Option.some.injEq] at hother
    rw [← hother]
    exact ⟨htyping, hrefused⟩
  · exact absurd heq (Draft.pieces_ne_refused hrefused t ps)

theorem endsMantissa_marker {m : List Char}
    (h : m = Radix.shortMarker ∨ ∃ r : Radix, m = r.marker) :
    Lexeme.endsMantissa m.getLast? = false := by
  rcases h with rfl | ⟨r, rfl⟩
  · decide
  · cases r <;> decide

theorem absorb_of_ne_marker {b : Literal.Builder} {l : Lexeme} (h : l.kind ≠ .marker) :
    b.absorb l = { b with current := some (b.current.getD [] ++ l.text) } := by
  rw [Literal.Builder.absorb, if_neg h]

theorem typing_marker {b : Literal.Builder} (hb : b.session = session) {m : List Char}
    (h : m = Radix.shortMarker ∨ ∃ r : Radix, m = r.marker) (pos : Nat) :
    (b.absorb ⟨.marker, m, pos⟩).current = some [] ∧
      (b.absorb ⟨.marker, m, pos⟩).Typing session m.getLast? [] := by
  rw [Literal.Builder.absorb, if_pos rfl]
  exact ⟨rfl, hb, fun h => absurd h (by simp only [Bool.true_eq_false, not_false_eq_true]),
    trivial, .inr ⟨rfl, endsMantissa_marker h⟩⟩

/-- What a builder with nothing open takes in opens a literal. -/
theorem typing_of_new (hkind : kind ≠ .exponent)
    (hrec : Lexeme.Recognised prev hex c cs kind n)
    (hgoes : (Literal.Builder.new session).canContinue ⟨kind, c :: cs.take n, pos⟩ = true) :
    ∃ body, ((Literal.Builder.new session).absorb ⟨kind, c :: cs.take n, pos⟩).current = some body ∧
      ((Literal.Builder.new session).absorb ⟨kind, c :: cs.take n, pos⟩).Typing session
        (c :: cs.take n).getLast? body := by
  rw [Literal.Builder.canContinue_eq, Literal.Builder.takesSign_of_current_eq_none rfl,
    Bool.or_false, Literal.Builder.goesOn] at hgoes
  cases hrec with
  | marker n h => exact ⟨[], typing_marker rfl h pos⟩
  | point hc =>
      rw [absorb_of_ne_marker (by simp)]
      exact ⟨[c], rfl, (typing_new session).push (.inr (.point hc))⟩
  | digit hc =>
      rw [absorb_of_ne_marker (by simp)]
      exact ⟨[c], rfl, (typing_new session).push (.inr (.digit hgoes))⟩
  | exponent => exact absurd rfl hkind
  | _ => exact absurd hgoes Bool.false_ne_true

/-- What goes on with an open literal is typed into it. -/
theorem typing_of_continues {body : List Char} (hcurrent : p.builder.current = some body)
    (h : p.builder.Typing session prev body)
    (hrec : Lexeme.Recognised prev p.builder.isHex c cs kind n)
    (hgoes : p.builder.canContinue ⟨kind, c :: cs.take n, pos⟩ = true) :
    ∃ body', (p.builder.absorb ⟨kind, c :: cs.take n, pos⟩).current = some body' ∧
      (p.builder.absorb ⟨kind, c :: cs.take n, pos⟩).Typing session
        (c :: cs.take n).getLast? body' := by
  -- Whatever its kind, the lexeme is the one character `c`, and that is pushed onto the body.
  have hpush : ∀ k, k ≠ Lexeme.Kind.marker →
      Numeral.isSeparator c = true ∨ Fits p.builder.active
        (Literal.digits ⟨p.builder.active, p.builder.explicit, body⟩).getLast? c →
      ∃ body', (p.builder.absorb ⟨k, [c], pos⟩).current = some body' ∧
        (p.builder.absorb ⟨k, [c], pos⟩).Typing session (some c) body' := by
    intro k hk hc
    rw [absorb_of_ne_marker hk, hcurrent]
    exact ⟨body ++ [c], rfl, h.push hc⟩
  rw [Literal.Builder.canContinue_eq, Bool.or_eq_true] at hgoes
  rcases hgoes with hgoes | hsign
  · rw [Literal.Builder.goesOn] at hgoes
    cases hrec with
    | marker n h =>
        rw [Literal.Builder.isOpen, hcurrent] at hgoes
        exact absurd hgoes Bool.false_ne_true
    | separator hsep => exact hpush _ (by decide) (.inl hsep)
    | point hc => exact hpush _ (by decide) (.inr (.point hc))
    | digit hc => exact hpush _ (by decide) (.inr (.digit hgoes))
    | exponent hhex hc hprev =>
        refine hpush _ (by decide) (.inr (.exponent (beq_eq_false_iff_ne.mp hhex) hc ?_))
        rcases h.aligned with hlast | ⟨-, hnone⟩
        · rcases hp : prev with _ | d
          · rw [hp] at hprev
            exact absurd hprev Bool.false_ne_true
          · rw [hp] at hprev hlast
            rwa [Literal.getLast?_digits hlast (Literal.endsMantissa_not_separator hprev)]
        · rw [hnone] at hprev
          exact absurd hprev Bool.false_ne_true
    | _ => exact absurd hgoes Bool.false_ne_true
  · -- The sign of a power of ten is a single character, whatever its kind.
    rcases Literal.Builder.takesSign_eq_true.mp hsign with ⟨hhex, htext, other, hother, hlast⟩
    rw [hcurrent, Option.some.injEq] at hother
    rw [← hother] at hlast
    have hone : cs.take n = [] ∧ (c = '+' ∨ c = '-') := by
      simp only [List.cons.injEq] at htext
      rcases htext with ⟨hc, htake⟩ | ⟨hc, htake⟩
      · exact ⟨htake, .inl hc⟩
      · exact ⟨htake, .inr hc⟩
    rw [hone.1]
    refine hpush kind ?_ (.inr (.sign hhex hone.2 ?_))
    · rintro rfl
      have hlen := hrec.marker_length rfl
      rw [hone.1] at hlen
      exact absurd hlen.1 (Nat.not_succ_le_self 1)
    · exact Literal.getLast?_digits hlast (by decide)

/-- Taking a lexeme in keeps what the walk keeps, or is in vain. -/
theorem good_taken (h : Good session known prev (c :: cs) p)
    (hrec : Lexeme.Recognised prev p.builder.isHex c cs kind n)
    (hstays : ¬p.Stays ⟨kind, c :: cs.take n, pos⟩)
    (hgoes : p.builder.canContinue ⟨kind, c :: cs.take n, pos⟩ = true)
    (hbuilder : p'.builder = p.builder.absorb ⟨kind, c :: cs.take n, pos⟩)
    (hdraft : p'.draft = p.draft) :
    p'.Doomed ∨ Good session known (c :: cs.take n).getLast? (cs.drop n) p' := by
  rcases hcurrent : p.builder.current with _ | body
  · have hnew := h.fresh hcurrent
    rw [hnew] at hgoes hbuilder
    by_cases hrefused : p.draft.endsRefused = true
    · -- Behind a refused digit only a marker opens a literal.
      left
      have hkind : kind = .marker := by
        have hgo := hgoes
        rw [Literal.Builder.canContinue_eq, Literal.Builder.takesSign_of_current_eq_none rfl,
          Bool.or_false, Literal.Builder.goesOn] at hgo
        cases kind with
        | marker => rfl
        | digit => exact absurd ⟨hrefused, .inl rfl⟩ hstays
        | point => exact absurd ⟨hrefused, .inr (.inl rfl)⟩ hstays
        | exponent => exact absurd ⟨hrefused, .inr (.inr rfl)⟩ hstays
        | _ => exact absurd hgo Bool.false_ne_true
      refine ⟨by rw [hdraft]; exact hrefused, [], ?_, rfl⟩
      rw [hbuilder, hkind, Literal.Builder.absorb, if_pos rfl]
    · right
      rw [Bool.not_eq_true] at hrefused
      -- With nothing open, the letter of a power would have belonged to the word before.
      have hkind : kind ≠ .exponent := by
        rintro rfl
        cases hrec with
        | exponent _ hc hmantissa =>
            have hchar := h.mantissa hcurrent hrefused hmantissa c rfl
            rw [hc] at hchar
            exact absurd hchar (by decide)
      rcases typing_of_new hkind hrec hgoes with ⟨body, hbody, htyping⟩
      rw [← hbuilder] at hbody htyping
      rw [← hdraft] at hrefused
      exact good_of_typing (hdraft ▸ h.row) (hdraft ▸ h.names) hrefused hbody htyping
  · right
    rcases h.typing body hcurrent with ⟨htyping, hrefused⟩
    rcases typing_of_continues hcurrent htyping hrec hgoes with ⟨body', hbody', htyping'⟩
    rw [← hbuilder] at hbody' htyping'
    rw [← hdraft] at hrefused
    exact good_of_typing (hdraft ▸ h.row) (hdraft ▸ h.names) hrefused hbody' htyping'

theorem row_shown (h : Good session known prev cs p)
    (hdigits : ∀ literal, p.builder.finish.1 = some literal → literal.digits ≠ []) :
    Row session p.shown p.draft.openings.length ∧
      p.draft.undefinedNames = undefinedIn known p.shown := by
  unfold shown Literal.Builder.shown
  rcases hcurrent : p.builder.current with _ | body
  · rw [Literal.Builder.finish_of_current_eq_none hcurrent]
    exact ⟨h.row, h.names⟩
  · have hfinish := Literal.Builder.finish_of_current_eq_some hcurrent
    have hne := hdigits ⟨p.builder.active, p.builder.explicit, body⟩ (by rw [hfinish])
    rcases h.typing body hcurrent with ⟨htyping, -⟩
    rw [hfinish]
    exact ⟨.made h.row (.number (Piece.numberText_normal htyping.implicit) hne htyping.spelled),
      h.names⟩

theorem row_of_closes {l : Lexeme} {opens : Bool} {d : Draft}
    (h : Good session known prev cs p) (hd : p.Closes l opens d)
    (hbare : l.kind ≠ .digit ∨ opens = true) :
    Row session d.pieces d.openings.length ∧ d.undefinedNames = undefinedIn known d.pieces := by
  cases hd with
  | nothing => exact ⟨h.row, h.names⟩
  | number literal hfinish hdigits =>
      have hrow := row_shown h (fun other hother => by
        rw [hfinish, Option.some.injEq] at hother
        rwa [← hother])
      unfold shown Literal.Builder.shown at hrow
      rw [hfinish] at hrow
      exact hrow
  | bare literal hfinish hdigits hkind hopens =>
      rcases hbare with hbare | hbare
      · exact absurd hkind hbare
      · rw [hbare] at hopens
        exact absurd hopens (by simp only [Bool.true_eq_false, not_false_eq_true])

theorem finish_new (h : Good session known prev cs p) : p.builder.finish.2 = .new session := by
  rcases hcurrent : p.builder.current with _ | body
  · rw [Literal.Builder.finish_of_current_eq_none hcurrent, h.fresh hcurrent]
  · rw [Literal.Builder.finish_of_current_eq_some hcurrent, (h.typing body hcurrent).1.base]

theorem current_of_opened {l : Lexeme} (h : p.builder.canContinue l = false)
    (hnext : p.builder.finish.2.canContinue l = true) :
    ∃ body, p.builder.current = some body := by
  rcases hcurrent : p.builder.current with _ | body
  · rw [Literal.Builder.finish_of_current_eq_none hcurrent, h] at hnext
    exact absurd hnext Bool.false_ne_true
  · exact ⟨body, rfl⟩

theorem good_opened {d : Draft} (h : Good session known prev (c :: cs) p)
    (hrec : Lexeme.Recognised prev p.builder.isHex c cs kind n)
    (hgoes : p.builder.canContinue ⟨kind, c :: cs.take n, pos⟩ = false)
    (hnext : p.builder.finish.2.canContinue ⟨kind, c :: cs.take n, pos⟩ = true)
    (hd : p.Closes ⟨kind, c :: cs.take n, pos⟩ true d)
    (hbuilder : p'.builder = p.builder.finish.2.absorb ⟨kind, c :: cs.take n, pos⟩)
    (hdraft : p'.draft = d) :
    Good session known (c :: cs.take n).getLast? (cs.drop n) p' := by
  rcases current_of_opened hgoes hnext with ⟨body, hcurrent⟩
  rcases row_of_closes h hd (.inr rfl) with ⟨hrow, hnames⟩
  have hrefused : d.endsRefused = false := by
    cases hd with
    | nothing => exact (h.typing body hcurrent).2
    | number => rfl
    | bare _ _ _ _ hopens =>
        exact absurd hopens (by simp only [Bool.true_eq_false, not_false_eq_true])
  have hkind : kind ≠ .exponent := by
    rintro rfl
    rw [Literal.Builder.canContinue_eq, Literal.Builder.goesOn, Bool.true_or] at hgoes
    exact absurd hgoes (by simp only [Bool.true_eq_false, not_false_eq_true])
  rw [finish_new h] at hnext hbuilder
  rcases typing_of_new hkind hrec hnext with ⟨body', hbody', htyping⟩
  rw [← hbuilder] at hbody' htyping
  exact good_of_typing (hdraft ▸ hrow) (hdraft ▸ hnames) (hdraft ▸ hrefused) hbody' htyping

theorem good_pushed (hrow : Row session p.draft.pieces p.draft.openings.length)
    (hnames : p.draft.undefinedNames = undefinedIn known p.draft.pieces)
    (hbuilder : p.builder = .new session) (hnumber : ∀ t ps, p.draft.pieces ≠ .number t :: ps)
    (hmantissa : Lexeme.endsMantissa prev = true →
      (∃ t ps, p.draft.pieces = .refused t :: ps) ∨ ∀ c ∈ cs.head?, isNameChar c = false)
    (htrail : ∀ t ps, p.draft.pieces = .refused t :: ps → Lexeme.endsMantissa prev = true →
      t.getLast? = prev) : Good session known prev cs p := by
  refine ⟨hrow, hnames, fun _ => hbuilder, fun _ => hnumber, fun _ hrefused hprev => ?_,
    fun body hbody => ?_, htrail⟩
  · rcases hmantissa hprev with ⟨t, ps, heq⟩ | hrest
    · exact absurd heq (Draft.pieces_ne_refused hrefused t ps)
    · exact hrest
  · rw [hbuilder] at hbody
    cases hbody

/-- A refused digit is written behind the marker of its base and the digits of
    the literal it closes, if there are any. They come from its body. -/
theorem addRefused_of_closes {d : Draft} {l : Lexeme} (h : Good session known prev cs p)
    (hstays : ¬p.Stays l) (hdigit : l.kind = .digit) (hl : l.text = [c])
    (hactive : p.builder.active.accepts c = false) (hsession : session.accepts c = false)
    (hdec : session ≠ .dec) (hd : p.Closes l false d) :
    ∃ r ds, Chained (Fits r) none ds ∧ r.accepts c = false ∧
      (∀ d ∈ ds, ∃ body, p.builder.current = some body ∧ d ∈ body) ∧
      (d.addRefused session l).pieces = .refused (r.marker ++ (ds ++ [c])) :: p.draft.pieces ∧
      (d.addRefused session l).openings = p.draft.openings ∧
      (d.addRefused session l).undefinedNames = p.draft.undefinedNames := by
  -- Only the open literal can be closed, and what is typed in it makes its digits.
  have hbody : ∀ literal, p.builder.finish.1 = some literal →
      ∃ body, p.builder.current = some body ∧ p.builder.Typing session prev body ∧
        literal = ⟨p.builder.active, p.builder.explicit, body⟩ := by
    intro literal hfinish
    rcases hcurrent : p.builder.current with _ | body
    · rw [Literal.Builder.finish_of_current_eq_none hcurrent] at hfinish
      cases hfinish
    · rw [Literal.Builder.finish_of_current_eq_some hcurrent, Option.some.injEq] at hfinish
      exact ⟨body, rfl, (h.typing body hcurrent).1, hfinish.symm⟩
  have hnil : ∀ d ∈ ([] : List Char), ∃ body, p.builder.current = some body ∧ d ∈ body :=
    fun d hd => absurd hd List.not_mem_nil
  cases hd with
  | nothing hfinish =>
      have hcurrent : p.builder.current = none := by
        rcases hcurrent : p.builder.current with _ | body
        · rfl
        · rw [Literal.Builder.finish_of_current_eq_some hcurrent] at hfinish
          cases hfinish
      refine ⟨session, [], trivial, hsession, hnil, ?_⟩
      unfold Draft.addRefused
      split
      · -- With nothing open the row ends in no number that the digit could be glued to.
        rename_i t ps heq
        exact absurd heq (h.unglued hcurrent t ps)
      · rename_i t ps heq
        refine absurd ⟨?_, .inl hdigit⟩ hstays
        rw [Draft.endsRefused, heq]
      · rw [if_neg hdec, hl]
        exact ⟨rfl, rfl, rfl⟩
  | number literal hfinish =>
      rcases hbody literal hfinish with ⟨body, hcurrent, htyping, rfl⟩
      refine ⟨_, _, htyping.spelled, hactive,
        fun d hd => ⟨body, hcurrent, (List.mem_filter.mp hd).1⟩, ?_⟩
      have hnormal := (Piece.numberText_normal
        (l := ⟨p.builder.active, p.builder.explicit, body⟩) htyping.implicit).of_ne_dec hdec
      refine ⟨?_, rfl, rfl⟩
      rw [← List.append_assoc, ← hnormal, ← hl]
      rfl
  | bare literal hfinish =>
      -- The literal has a marker and no digits, so nothing stands between it and the digit.
      rcases hbody literal hfinish with ⟨body, -, htyping, rfl⟩
      refine ⟨_, [], trivial, hactive, hnil, ?_⟩
      refine ⟨?_, rfl, rfl⟩
      rw [List.nil_append, ← hl]
      rfl

/-- A digit that neither the open literal nor the base of the session has. -/
theorem good_refused {d : Draft} (h : Good session known prev (c :: cs) p)
    (hrec : Lexeme.Recognised prev p.builder.isHex c cs .digit n)
    (hstays : ¬p.Stays ⟨.digit, c :: cs.take n, pos⟩)
    (hgoes : p.builder.canContinue ⟨.digit, c :: cs.take n, pos⟩ = false)
    (hnext : p.builder.finish.2.canContinue ⟨.digit, c :: cs.take n, pos⟩ = false)
    (hd : p.Closes ⟨.digit, c :: cs.take n, pos⟩ false d)
    (hbuilder : p'.builder = p.builder.finish.2)
    (hdraft : p'.draft = d.addRefused session ⟨.digit, c :: cs.take n, pos⟩) :
    Good session known (c :: cs.take n).getLast? (cs.drop n) p' := by
  rw [finish_new h, Literal.Builder.canContinue_eq, Bool.or_eq_false_iff] at hnext
  rw [Literal.Builder.canContinue_eq, Bool.or_eq_false_iff] at hgoes
  have hactive : p.builder.active.accepts c = false := hgoes.1
  have hsession : session.accepts c = false := hnext.1
  -- A letter is a digit in base sixteen only, which accepts it.
  have hdigit : c.isDigit = true ∧ c :: cs.take n = [c] := by
    cases hrec with
    | digit hc =>
        refine ⟨?_, rfl⟩
        rcases hc with hc | ⟨hhex, hc⟩
        · exact hc
        · rw [Literal.Builder.isHex, beq_iff_eq] at hhex
          rw [hhex, hc] at hactive
          exact absurd hactive (by simp only [Bool.true_eq_false, not_false_eq_true])
  have hdec := (Radix.refuses_isDigit hdigit.1 hsession).1
  rcases addRefused_of_closes h hstays rfl hdigit.2 hactive hsession hdec hd with
    ⟨r, ds, hds, hr, -, hpieces, hopenings, hnames⟩
  rw [← hdraft] at hpieces hopenings hnames
  rw [hdigit.2]
  refine good_pushed ?_ ?_ (hbuilder.trans (finish_new h)) ?_ ?_ ?_
  · rw [hpieces, hopenings]
    exact .made h.row (.refused hds hdigit.1 hr hsession trivial)
  · rw [hpieces, hnames, h.names]
    rfl
  · intro t ps heq
    rw [hpieces] at heq
    cases heq
  · exact fun _ => .inl ⟨_, _, hpieces⟩
  · intro t ps heq _
    rw [hpieces, List.cons.injEq, Piece.refused.injEq] at heq
    rw [← heq.1, ← List.append_assoc, List.getLast?_concat]
    rfl

theorem drop_takeWhile (cs : List Char) (p : Char → Bool) :
    cs.drop (cs.takeWhile p).length = cs.dropWhile p := by
  calc cs.drop (cs.takeWhile p).length
      = (cs.takeWhile p ++ cs.dropWhile p).drop (cs.takeWhile p).length := by
        rw [List.takeWhile_append_dropWhile]
    _ = cs.dropWhile p := List.drop_left

theorem take_takeWhile (cs : List Char) (p : Char → Bool) :
    cs.take (cs.takeWhile p).length = cs.takeWhile p := by
  calc cs.take (cs.takeWhile p).length
      = (cs.takeWhile p ++ cs.dropWhile p).take (cs.takeWhile p).length := by
        rw [List.takeWhile_append_dropWhile]
    _ = cs.takeWhile p := List.take_left

theorem addConstant_eq {d : Draft} {l : Lexeme} {t : List Char} (hnormal : l.normal = t)
    (hnames : d.undefinedNames = undefinedIn known d.pieces) :
    d.addConstant known l =
      { d.add (.constant t) l.span with
        undefinedNames := undefinedIn known (.constant t :: d.pieces) } := by
  rw [Draft.addConstant, hnormal, undefinedIn, ← hnames]

/-- One more piece in the row that is neither a number nor refused, with nothing
    open. -/
theorem good_placed {d : Draft} {q : Piece} {zone : Span} {openings : List Nat}
    {names : List String} (hbuilder : p.builder = .new session)
    (hdraft : p.draft = { d.add q zone with openings := openings, undefinedNames := names })
    (hnumber : ∀ t, q ≠ .number t) (hrefused : ∀ t, q ≠ .refused t)
    (hrow : Row session (q :: d.pieces) openings.length)
    (hnames : names = undefinedIn known (q :: d.pieces))
    (hprev : Lexeme.endsMantissa prev = true → ∀ e ∈ cs.head?, isNameChar e = false) :
    Good session known prev cs p := by
  have hpieces : p.draft.pieces = q :: d.pieces := by rw [hdraft]; rfl
  refine good_pushed ?_ ?_ hbuilder ?_ (fun he => .inr (hprev he)) ?_
  · rw [hdraft]
    exact hrow
  · rw [hdraft]
    exact hnames
  · intro t ps heq
    rw [hpieces] at heq
    exact hnumber t (List.cons.inj heq).1
  · intro t ps heq _
    rw [hpieces] at heq
    exact absurd (List.cons.inj heq).1 (hrefused t)

theorem good_separator {d d' : Draft} (h : Good session known prev (c :: cs) p)
    (hsep : Numeral.isSeparator c = true) (hcurrent : p.builder.current = none)
    (hd : p.Closes ⟨.separator, [c], pos⟩ false d)
    (hadd : d.addLexeme session known ⟨.separator, [c], pos⟩ = .ok d')
    (hbuilder : p'.builder = .new session) (hdraft : p'.draft = d') :
    Good session known (some c) cs p' := by
  have hsame : d = p.draft := by
    have hfinish := Literal.Builder.finish_of_current_eq_none hcurrent
    cases hd with
    | nothing => rfl
    | number literal h | bare literal h =>
        rw [hfinish] at h
        cases h
  have hmantissa : ¬Lexeme.endsMantissa (some c) = true := by
    intro he
    rw [Literal.endsMantissa_not_separator he] at hsep
    exact absurd hsep Bool.false_ne_true
  have hdraft' : p'.draft = p.draft := by
    rw [hdraft, ← Except.ok.inj hadd, hsame]
  refine good_pushed ?_ ?_ hbuilder ?_ (fun he => absurd he hmantissa)
    (fun t ps _ he => absurd he hmantissa)
  · rw [hdraft']
    exact h.row
  · rw [hdraft']
    exact h.names
  · rw [hdraft']
    exact h.unglued hcurrent

/-- A sign stands behind an operand, unless it is the sign of a sum. -/
theorem good_sign {d d' : Draft} (hc : c ∈ Lexeme.operatorSigns)
    (hrow : Row session d.pieces d.openings.length)
    (hnames : d.undefinedNames = undefinedIn known d.pieces)
    (hadd : d.addLexeme session known ⟨.operator, [c], pos⟩ = .ok d')
    (hbuilder : p.builder = .new session) (hdraft : p.draft = d') :
    Good session known (some c) cs p := by
  rcases Lexeme.normal_operator hc pos with ⟨e, he, hnormal⟩
  have hprev : ∀ c ∈ Lexeme.operatorSigns, Lexeme.endsMantissa (some c) = false :=
    Text.forall_of_all (by decide)
  unfold Draft.addLexeme at hadd
  simp only [hnormal] at hadd
  split at hadd
  · cases hadd
  · rename_i hplace
    have hstands : e = '+' ∨ e = '-' ∨ Piece.ends d.pieces = true := by
      rw [Piece.awaitsOperand_eq] at hplace
      simp only [List.mem_cons, List.not_mem_nil, or_false] at he
      rcases he with rfl | rfl | rfl | rfl | rfl <;> simp at hplace ⊢ <;> exact hplace
    have hdraft' := hdraft.trans (Except.ok.inj hadd).symm
    refine good_placed hbuilder hdraft' ?_ ?_ (.sign hrow he hstands) hnames (fun hm => ?_)
    · exact fun t => Piece.noConfusion
    · exact fun t => Piece.noConfusion
    · rw [hprev c hc] at hm
      exact absurd hm Bool.false_ne_true

/-- A bracket is closed where an operand has ended. -/
theorem good_closing {d d' : Draft} (hc : c = ')' ∨ c = ']')
    (hrow : Row session d.pieces d.openings.length)
    (hnames : d.undefinedNames = undefinedIn known d.pieces)
    (hadd : d.addLexeme session known ⟨.closing, [c], pos⟩ = .ok d')
    (hbuilder : p.builder = .new session) (hdraft : p.draft = d') :
    Good session known (some c) cs p := by
  rcases Draft.close_eq_ok.mp hadd with ⟨first, outer, hopenings, hopening, hincomplete, hd'⟩
  rw [hopenings, List.length_cons] at hrow
  -- A bracket is open, so the row is not empty.
  have hne : d.pieces ≠ [] := by
    intro hnil
    rw [hnil] at hrow
    cases hrow
  have hends := Piece.ends_of_complete hne hopening hincomplete
  refine good_placed hbuilder (hdraft.trans hd') ?_ ?_ (.closing hrow hends) hnames ?_
  · exact fun t => Piece.noConfusion
  · exact fun t => Piece.noConfusion
  · rcases hc with rfl | rfl <;> exact fun hm => absurd hm (by decide)

theorem good_constant {d : Draft} {l : Lexeme} {t : List Char} (hnormal : l.normal = t)
    (ht : WellMade session (.constant t)) (hrow : Row session d.pieces d.openings.length)
    (hnames : d.undefinedNames = undefinedIn known d.pieces)
    (hbuilder : p.builder = .new session) (hdraft : p.draft = d.addConstant known l)
    (hprev : Lexeme.endsMantissa prev = true → ∀ e ∈ cs.head?, isNameChar e = false) :
    Good session known prev cs p := by
  rw [addConstant_eq hnormal hnames] at hdraft
  refine good_placed hbuilder hdraft ?_ ?_ (.made hrow ht) rfl hprev
  · exact fun t => Piece.noConfusion
  · exact fun t => Piece.noConfusion

theorem good_added {d d' : Draft} (h : Good session known prev (c :: cs) p)
    (hrec : Lexeme.Recognised prev p.builder.isHex c cs kind n) (hkind : kind ≠ .digit)
    (hgoes : p.builder.canContinue ⟨kind, c :: cs.take n, pos⟩ = false)
    (hnext : p.builder.finish.2.canContinue ⟨kind, c :: cs.take n, pos⟩ = false)
    (hd : p.Closes ⟨kind, c :: cs.take n, pos⟩ false d)
    (hadd : d.addLexeme session known ⟨kind, c :: cs.take n, pos⟩ = .ok d')
    (hbuilder : p'.builder = p.builder.finish.2) (hdraft : p'.draft = d') :
    Good session known (c :: cs.take n).getLast? (cs.drop n) p' := by
  rw [Literal.Builder.canContinue_eq, Bool.or_eq_false_iff] at hgoes hnext
  rw [finish_new h] at hnext hbuilder
  rcases row_of_closes h hd (.inl hkind) with ⟨hrow, hnames⟩
  -- A marker always opens a literal, a point and an exponent always go on with one, and a
  -- digit is refused or taken. What is left is the piece that each other rule adds.
  cases hrec with
  | marker n hm =>
      have hfalse : true = false := hnext.1
      exact absurd hfalse (by decide)
  | point | exponent =>
      have hfalse : true = false := hgoes.1
      exact absurd hfalse (by decide)
  | digit => exact absurd rfl hkind
  | separator hsep =>
      have hcurrent : p.builder.current = none :=
        Option.isNone_iff_eq_none.mp (Option.isSome_eq_false_iff.mp hgoes.1)
      exact good_separator h hsep hcurrent hd hadd hbuilder hdraft
  | operator hc => exact good_sign hc hrow hnames hadd hbuilder hdraft
  | opening hc =>
      have hdraft' := hdraft.trans (Except.ok.inj hadd).symm
      refine good_placed hbuilder hdraft' ?_ ?_ (.opening hrow) hnames ?_
      · exact fun t => Piece.noConfusion
      · exact fun t => Piece.noConfusion
      · rw [List.take_zero]
        rcases hc with rfl | rfl <;> exact fun hm => absurd hm (by decide)
  | closing hc => exact good_closing hc hrow hnames hadd hbuilder hdraft
  | root hc =>
      have hdraft' := hdraft.trans (Except.ok.inj hadd).symm
      rw [hc, List.take_zero] at hdraft' ⊢
      refine good_placed hbuilder hdraft' ?_ ?_ (.made hrow .root) hnames ?_
      · exact fun t => Piece.noConfusion
      · exact fun t => Piece.noConfusion
      · exact fun hm => absurd hm (by decide)
  | called n hc =>
      have hdraft' := hdraft.trans (Except.ok.inj hadd).symm
      have hprev : ∀ name ∈ functionNames, Lexeme.endsMantissa name.getLast? = false := by decide
      refine good_placed hbuilder hdraft' ?_ ?_ (.made hrow (.called hc)) hnames ?_
      · exact fun t => Piece.noConfusion
      · exact fun t => Piece.noConfusion
      · rw [hprev _ hc]
        exact fun hm => absurd hm Bool.false_ne_true
  | circle hc =>
      have hnormal : Lexeme.normal ⟨.constant, c :: cs.take 0, pos⟩ = ['p', 'i'] := by
        rw [hc]
        rfl
      have ht : WellMade session (.constant ['p', 'i']) :=
        .constant (by decide) (Text.forall_of_all (by decide)) (by decide)
      refine good_constant hnormal ht hrow hnames hbuilder
        (hdraft.trans (Except.ok.inj hadd).symm) ?_
      rw [hc, List.take_zero]
      exact fun hm => absurd hm (by decide)
  | name hc hname =>
      have hnormal : Lexeme.normal
          ⟨.constant, c :: cs.take (cs.takeWhile isNameChar).length, pos⟩ =
          c :: cs.takeWhile isNameChar := by
        rw [take_takeWhile]
        exact Lexeme.normal_name hc pos
      have hchars := List.all_eq_true.mp (List.all_takeWhile (p := isNameChar) (l := cs))
      refine good_constant hnormal (.constant hc hchars hname) hrow hnames hbuilder
        (hdraft.trans (Except.ok.inj hadd).symm) (fun _ => ?_)
      rw [drop_takeWhile]
      exact Lexeme.stops_dropWhile cs

/-- Every move keeps what the walk keeps, or is in vain. -/
theorem good_of_moves (h : Good session known prev (c :: cs) p)
    (hrec : Lexeme.Recognised prev p.builder.isHex c cs kind n)
    (hmove : Moves session known p ⟨kind, c :: cs.take n, pos⟩ p'.builder p'.draft) :
    p'.Doomed ∨ Good session known (c :: cs.take n).getLast? (cs.drop n) p' := by
  generalize hb : p'.builder = b at hmove
  generalize hd : p'.draft = d at hmove
  cases hmove with
  | glued hstays => exact .inr (good_glued h hrec hstays hb hd)
  | taken hstays hgoes => exact good_taken h hrec hstays hgoes hb hd
  | opened _ _ hgoes hnext hclosed => exact .inr (good_opened h hrec hgoes hnext hclosed hb hd)
  | added d _ hstays hgoes hnext hclosed hadd =>
      by_cases hkind : kind = .digit
      · subst hkind
        rw [← Except.ok.inj hadd] at hd
        exact .inr (good_refused h hrec hstays hgoes hnext hclosed hb hd)
      · exact .inr (good_added h hrec hkind hgoes hnext hclosed hadd hb hd)

/-- A walk that ends well has passed through no state that comes to nothing. -/
theorem good_of_finish {length : Nat} {d : Draft} (h : p.Doomed ∨ Good session known prev cs p)
    (hwalk : walk session known prev pos cs p = .ok p') (hfinish : p'.finish length = .ok d) :
    Good session known prev cs p := by
  refine h.resolve_left (fun hdoomed => ?_)
  rcases walk_induction (I := fun _ _ q => q.Doomed)
    (fun prev pos c cs kind n q q' hrec hq hmove => doomed_of_moves hq hrec hmove)
    hdoomed hwalk with
    ⟨-, -, body, hcurrent, hbody⟩
  rcases closeLast_ok (finish_ok hfinish).1 with ⟨-, -, -, hdigits⟩
  have hfinished := Literal.Builder.finish_of_current_eq_some hcurrent
  exact hdigits ⟨p'.builder.active, p'.builder.explicit, body⟩ (by rw [hfinished]) hbody

end Moves

/-- A text that is prepared is walked over to its end, and what the walk keeps holds
    there. -/
theorem good_of_draftOf {session : Radix} {known : String → Bool} {text : List Char} {d : Draft}
    (h : draftOf session known text = .ok d) :
    ∃ p last, walk session known none 0 text (start session) = .ok p ∧
      p.finish text.length = .ok d ∧ Good session known last [] p := by
  rw [draftOf_eq_walk] at h
  rcases hwalk : walk session known none 0 text (start session) with e | p
  · rw [hwalk] at h
    cases h
  rw [hwalk] at h
  rcases walk_induction
      (I := fun prev rest q => q.Doomed ∨ Good session known prev rest q)
      (fun prev pos c cs kind n q q' hrec hq hmove => hq.elim
        (fun hq => .inl (doomed_of_moves hq hrec hmove)) (fun hq => good_of_moves hq hrec hmove))
      (.inr (good_start session known text)) hwalk with ⟨last, hlast⟩
  exact ⟨p, last, rfl, h, good_of_finish hlast (walk_nil last text.length p) h⟩

/-- The pieces of every prepared expression form a row without open brackets
    that ends in an operand or is empty, and the names left undefined are those
    of its constants. -/
theorem row_of_draftOf {session : Radix} {known : String → Bool} {text : List Char} {d : Draft}
    (h : draftOf session known text = .ok d) :
    Row session d.pieces 0 ∧ d.isIncomplete = false ∧
      d.undefinedNames = undefinedIn known d.pieces := by
  rcases good_of_draftOf h with ⟨p, last, -, hfinish, hgood⟩
  rcases finish_ok hfinish with ⟨hlast, hopenings, hincomplete⟩
  rcases closeLast_ok hlast with ⟨hpieces, hnames, hopened, hdigits⟩
  rcases row_shown hgood hdigits with ⟨hrow, hundefined⟩
  rw [← hpieces, ← hopened, hopenings] at hrow
  rw [← hpieces, ← hnames] at hundefined
  exact ⟨hrow, hincomplete, hundefined⟩

end Preparation

end ExactCalc
