import ExactCalc.Proofs.Prepared.Again
import ExactCalc.Proofs.Token.Number

/-!
# Refused Digits

What becomes of a digit that the base in force refuses.

The builder refuses it in any case, and the open literal is closed. If the base
of the session has the digit, it opens a literal of that base; so a digit behind
a literal with a marker is read in the base of the session, as a factor of its
own. If the base of the session has not, the digit is written behind the number
that has been closed, or behind a marker, and stays there to the end: pieces are
added behind it and characters to it, but none is taken away. The tokenizer cuts
the written text at that marker, and reads points and digits behind it until it
comes to the refused one. Only the letter of a power of ten could come before,
since the digits of the power are decimal ones in every base.

## Main definitions

* `Visits`: The states that a walk over a text passes through.
* `Refuses`: A digit of the text that the builder refuses.
* `Draft.Keeps`: A refused number that begins with given characters.

## Theorems

* `walk_of_visits`: The walk from a state on is the rest of the walk.
* `keeps_moves`: Every move leaves a refused number where it is.
* `refused_digit`: A refused digit begins a literal of the session, or spoils the
  expression.
-/

namespace ExactCalc

open Literal (Fits Chained)

namespace Piece

/-- The text of every piece of a row stands in what is written. -/
theorem write_infix (back : List Piece) (q : Piece) (front : List Piece) :
    ∃ as bs, write (back ++ q :: front).reverse = as ++ (q.text ++ bs) := by
  induction back with
  | nil =>
      refine ⟨write front.reverse ++ link front q, [], ?_⟩
      rw [List.nil_append, write_reverse_cons, List.append_assoc, List.append_nil]
  | cons p back ih =>
      rcases ih with ⟨as, bs, h⟩
      refine ⟨as, bs ++ (link (back ++ q :: front) p ++ p.text), ?_⟩
      rw [List.cons_append, write_reverse_cons, h, List.append_assoc, List.append_assoc]

end Piece

namespace Literal

/-- Points and digits are all there is in a number without the letter of a power
    of ten. -/
theorem inMantissa_of_chained {r : Radix} {prev : Option Char} {ds : List Char}
    (h : Chained (Fits r) prev ds) (hprev : prev ≠ some exponentLetter)
    (hletter : exponentLetter ∉ ds) : ∀ d ∈ ds, Token.inMantissa r d = true := by
  induction ds generalizing prev with
  | nil => exact fun d hd => absurd hd List.not_mem_nil
  | cons c ds ih =>
      rw [List.mem_cons, not_or] at hletter
      have hc : Token.inMantissa r c = true := by
        cases h.1 with
        | digit h => rw [Token.inMantissa, Token.isDigitCandidate_of_accepts h, Bool.or_true]
        | point h => rw [h]; rfl
        | exponent _ h => exact absurd h.symm hletter.1
        | sign _ _ h => exact absurd h hprev
      refine List.forall_mem_cons.mpr ⟨hc, ih h.2 (fun heq => ?_) hletter.2⟩
      exact hletter.1 (Option.some.inj heq).symm

end Literal

/-- A refused number of the draft begins with given characters. -/
def Draft.Keeps (u : List Char) (d : Draft) : Prop :=
  ∃ back t front, d.pieces = back ++ .refused t :: front ∧ u <+: t

namespace Preparation

/-- The states that a walk over a text passes through, each with the character
    before, the position, and the text to come. -/
inductive Visits (session : Radix) (known : String → Bool) (text : List Char) :
    Option Char → Nat → List Char → Preparation → Prop where
  | start : Visits session known text none 0 text (start session)
  | step {prev : Option Char} {pos : Nat} {c : Char} {cs : List Char} {kind : Lexeme.Kind} {n : Nat}
      {p p' : Preparation} (h : Visits session known text prev pos (c :: cs) p)
      (hrec : Lexeme.recognise prev p.builder.isHex c cs = some (kind, n))
      (hstep : step session known p ⟨kind, c :: cs.take n, pos⟩ = .ok p') :
      Visits session known text (c :: cs.take n).getLast? (pos + (c :: cs.take n).length)
        (cs.drop n) p'

/-- A digit of the text that the builder is asked for and refuses. -/
structure Refuses (session : Radix) (known : String → Bool) (text : List Char)
    (prev : Option Char) (pos : Nat) (c : Char) (cs : List Char) (p : Preparation) : Prop where
  visits : Visits session known text prev pos (c :: cs) p
  digit : Lexeme.recognise prev p.builder.isHex c cs = some (.digit, 0)
  asked : ¬p.Stays ⟨.digit, [c], pos⟩
  refused : p.builder.canContinue ⟨.digit, [c], pos⟩ = false

section Walking

variable {session : Radix} {known : String → Bool} {text : List Char} {prev : Option Char}
  {pos : Nat} {cs u : List Char} {p p' : Preparation} {l : Lexeme}

/-- The walk from a state on is the rest of the walk over the text. -/
theorem walk_of_visits (h : Visits session known text prev pos cs p) :
    walk session known none 0 text (start session) = walk session known prev pos cs p := by
  induction h with
  | start => rfl
  | step _ hrec hstep ih => rw [ih, walk_cons hrec _ hstep]

theorem good_of_visits (h : Visits session known text prev pos cs p) :
    p.Doomed ∨ Good session known prev cs p := by
  induction h with
  | start => exact .inr (good_start session known text)
  | step _ hrec hstep ih =>
      have hrec' := Lexeme.recognised_of_eq_some hrec
      rcases ih with hdoomed | hgood
      · exact .inl (doomed_of_moves hdoomed hrec' (moves_of_step hstep))
      · exact good_of_moves hgood hrec' (moves_of_step hstep)

theorem keeps_cons {d d' : Draft} {q : Piece} (h : d.Keeps u) (hd : d'.pieces = q :: d.pieces) :
    d'.Keeps u := by
  rcases h with ⟨back, t, front, hpieces, hu⟩
  exact ⟨q :: back, t, front, by rw [hd, hpieces]; rfl, hu⟩

/-- A digit that is glued to the last piece leaves what that piece began with. -/
theorem keeps_addRefused {d : Draft} (h : d.Keeps u) : (d.addRefused session l).Keeps u := by
  rcases h with ⟨back, t, front, hpieces, hu⟩
  unfold Draft.addRefused
  split
  · rename_i s ps heq
    rw [hpieces] at heq
    rcases back with _ | ⟨q, back⟩
    · cases (List.cons.inj heq).1
    · exact ⟨_ :: back, t, front, by rw [← (List.cons.inj heq).2]; rfl, hu⟩
  · rename_i s ps heq
    rw [hpieces] at heq
    rcases back with _ | ⟨q, back⟩
    · rw [List.nil_append, List.cons.injEq, Piece.refused.injEq] at heq
      refine ⟨[], t ++ l.text, front, by rw [← heq.1, ← heq.2]; rfl, ?_⟩
      exact hu.trans (List.prefix_append t l.text)
    · exact ⟨_ :: back, t, front, by rw [← (List.cons.inj heq).2]; rfl, hu⟩
  · exact keeps_cons ⟨back, t, front, hpieces, hu⟩ rfl

theorem keeps_addLexeme {d d' : Draft} (h : d.Keeps u)
    (hadd : d.addLexeme session known l = .ok d') : d'.Keeps u := by
  unfold Draft.addLexeme at hadd
  split at hadd
  · exact Except.ok.inj hadd ▸ h
  · exact Except.ok.inj hadd ▸ keeps_addRefused h
  · exact Except.ok.inj hadd ▸ keeps_addRefused h
  · exact Except.ok.inj hadd ▸ keeps_addRefused h
  · exact Except.ok.inj hadd ▸ keeps_addRefused h
  · split at hadd
    · cases hadd
    · exact keeps_cons h (by rw [← Except.ok.inj hadd]; rfl)
  · exact keeps_cons h (by rw [← Except.ok.inj hadd]; rfl)
  · rcases Draft.close_eq_ok.mp hadd with ⟨first, outer, -, -, -, rfl⟩
    exact keeps_cons h rfl
  · exact keeps_cons h (by rw [← Except.ok.inj hadd]; rfl)
  · exact keeps_cons h (by rw [← Except.ok.inj hadd]; rfl)

theorem keeps_closes {opens : Bool} {d : Draft} (h : p.draft.Keeps u) (hd : p.Closes l opens d) :
    d.Keeps u := by
  cases hd with
  | nothing => exact h
  | number | bare => exact keeps_cons h rfl

/-- Every move leaves a refused number where it is. -/
theorem keeps_moves (h : p.draft.Keeps u)
    (hmove : Moves session known p l p'.builder p'.draft) : p'.draft.Keeps u := by
  generalize hb : p'.builder = b at hmove
  generalize hd : p'.draft = d at hmove ⊢
  cases hmove with
  | glued => exact keeps_addRefused h
  | taken => exact h
  | opened _ _ _ _ hclosed => exact keeps_closes h hclosed
  | added _ _ _ _ _ hclosed hadd => exact keeps_addLexeme (keeps_closes h hclosed) hadd

/-- What the draft keeps stands in the written expression. -/
theorem write_of_keeps {length : Nat} {d : Draft} (h : p.draft.Keeps u)
    (hwalk : walk session known prev pos cs p = .ok p') (hfinish : p'.finish length = .ok d) :
    ∃ as bs, Piece.write d.pieces.reverse = as ++ (u ++ bs) := by
  rcases walk_induction (I := fun _ _ q => q.draft.Keeps u)
    (fun prev pos c cs kind n q q' hrec hq hmove => keeps_moves hq hmove) h hwalk with ⟨-, hend⟩
  have hkeeps : d.Keeps u := by
    have hshown := (closeLast_ok (finish_ok hfinish).1).1
    unfold shown Literal.Builder.shown at hshown
    split at hshown
    · rcases hend with ⟨back, t, front, hpieces, hu⟩
      exact ⟨back, t, front, hshown.trans hpieces, hu⟩
    · exact keeps_cons hend hshown
  rcases hkeeps with ⟨back, t, front, hpieces, tail, rfl⟩
  rcases Piece.write_infix back (.refused (u ++ tail)) front with ⟨as, bs, hwrite⟩
  refine ⟨as, tail ++ bs, ?_⟩
  rw [hpieces, hwrite, Piece.text, List.append_assoc]

end Walking

section Refusing

variable {session : Radix} {known : String → Bool} {text : List Char} {prev : Option Char}
  {pos : Nat} {c : Char} {cs : List Char} {p p' : Preparation}

/-- A character is refused by the base in force, and is no letter. -/
theorem accepts_of_refuses (h : Refuses session known text prev pos c cs p) :
    p.builder.active.accepts c = false ∧ c.isDigit = true := by
  have hgoes := h.refused
  rw [Literal.Builder.canContinue_eq, Bool.or_eq_false_iff] at hgoes
  have hactive : p.builder.active.accepts c = false := hgoes.1
  refine ⟨hactive, ?_⟩
  have hrec := Lexeme.recognised_of_eq_some h.digit
  generalize hn : 0 = n at hrec
  cases hrec with
  | digit hc =>
      rcases hc with hc | ⟨hhex, hc⟩
      · exact hc
      · rw [Literal.Builder.isHex, beq_iff_eq] at hhex
        rw [hhex, hc] at hactive
        exact absurd hactive (by simp only [Bool.true_eq_false, not_false_eq_true])

/-- A refused digit that the session has opens a literal of the session behind the
    one it closes. -/
theorem opened_of_refuses (h : Refuses session known text prev pos c cs p)
    (hgood : Good session known prev (c :: cs) p) (hsession : session.accepts c = true)
    (hmove : Moves session known p ⟨.digit, [c], pos⟩ p'.builder p'.draft) :
    ∃ literal, p.builder.finish.1 = some literal ∧
      p'.builder = ⟨session, session, some [c], false⟩ ∧
      p'.draft.pieces = .number literal.normal :: p.draft.pieces := by
  have hnew := finish_new hgood
  have hnext : p.builder.finish.2.canContinue ⟨.digit, [c], pos⟩ = true := by
    rw [hnew, Literal.Builder.canContinue_eq, Bool.or_eq_true]
    exact .inl hsession
  generalize hb : p'.builder = b at hmove ⊢
  generalize hd : p'.draft = d at hmove ⊢
  cases hmove with
  | glued hstays => exact absurd hstays h.asked
  | taken _ hgoes => exact absurd (hgoes.symm.trans h.refused) (by decide)
  | added _ _ _ _ hrefused => exact absurd (hnext.symm.trans hrefused) (by decide)
  | opened _ _ hgoes _ hclosed =>
      rcases current_of_opened hgoes hnext with ⟨body, hcurrent⟩
      have hfinish := Literal.Builder.finish_of_current_eq_some hcurrent
      cases hclosed with
      | nothing hnone =>
          rw [hfinish] at hnone
          cases hnone
      | bare _ _ _ _ hopens =>
          exact absurd hopens (by simp only [Bool.true_eq_false, not_false_eq_true])
      | number literal hliteral =>
          refine ⟨literal, hliteral, ?_, rfl⟩
          rw [hnew]
          rfl

/-- A refused digit that the session has not either is written behind the marker of
    a base that refuses it, with points and digits between. -/
theorem keeps_of_refuses (h : Refuses session known text prev pos c cs p)
    (hgood : Good session known prev (c :: cs) p) (hsession : session.accepts c = false)
    (hletter : ∀ body, p.builder.current = some body → exponentLetter ∉ body)
    (hmove : Moves session known p ⟨.digit, [c], pos⟩ p'.builder p'.draft) :
    ∃ r ds, r.accepts c = false ∧ (∀ d ∈ ds, Token.inMantissa r d = true) ∧
      p'.draft.Keeps (r.marker ++ (ds ++ [c])) := by
  rcases accepts_of_refuses h with ⟨hactive, hdigit⟩
  have hnew := finish_new hgood
  have hnext : p.builder.finish.2.canContinue ⟨.digit, [c], pos⟩ = false := by
    rw [hnew, Literal.Builder.canContinue_eq, Literal.Builder.takesSign_of_current_eq_none rfl,
      Bool.or_false]
    exact hsession
  generalize hb : p'.builder = b at hmove
  generalize hd : p'.draft = d at hmove ⊢
  cases hmove with
  | glued hstays => exact absurd hstays h.asked
  | taken _ hgoes => exact absurd (hgoes.symm.trans h.refused) (by decide)
  | opened _ _ _ hgoes => exact absurd (hgoes.symm.trans hnext) (by decide)
  | added d' _ hstays _ _ hclosed hadd =>
      have hdec := (Radix.refuses_isDigit hdigit hsession).1
      rcases addRefused_of_closes hgood hstays rfl rfl hactive hsession hdec hclosed with
        ⟨r, ds, hds, hr, hfrom, hpieces, -⟩
      have hmantissa : exponentLetter ∉ ds := by
        intro hmem
        rcases hfrom _ hmem with ⟨body, hcurrent, hbody⟩
        exact hletter body hcurrent hbody
      refine ⟨r, ds, hr, Literal.inMantissa_of_chained hds (by decide) hmantissa, ?_⟩
      rw [← Except.ok.inj hadd]
      exact ⟨[], _, _, hpieces, List.prefix_rfl⟩

end Refusing

end Preparation

open Preparation (Refuses)

/-- A digit that the base in force refuses is never read silently as one of it. If
    the session has the digit, it closes the open literal and opens one of the
    session's base; if the session has it not, then no tokens come of the
    expression, unless the letter of a power of ten stands in the open literal. -/
theorem Prepared.refused_digit (registry : Registry) (session : Radix) (text : String)
    (result : Prepared) (h : Prepared.ofText registry session text = .ok result)
    {prev : Option Char} {pos : Nat} {c : Char} {cs : List Char} {p : Preparation}
    (hrefuses : Refuses session registry.contains text.toList prev pos c cs p) :
    (session.accepts c = true → ∃ literal p', p.builder.finish.1 = some literal ∧
      Preparation.step session registry.contains p ⟨.digit, [c], pos⟩ = .ok p' ∧
      p'.builder = ⟨session, session, some [c], false⟩ ∧
      p'.draft.pieces = .number literal.normal :: p.draft.pieces) ∧
    (session.accepts c = false →
      (∀ body, p.builder.current = some body → exponentLetter ∉ body) →
      ∃ e, Token.tokenize result.expression.toList = .error e) := by
  -- The walk that led to the digit goes on to the end of the text.
  rw [ofText, Preparation.draftOf_eq_walk, Preparation.walk_of_visits hrefuses.visits] at h
  rcases hwalk : Preparation.walk session registry.contains prev pos (c :: cs) p with e | last
  · rw [hwalk] at h
    cases h
  rw [hwalk] at h
  rcases hfinish : last.finish text.toList.length with e | d
  · simp only [hfinish, Except.map] at h
    cases h
  have hgood :=
    Preparation.good_of_finish (Preparation.good_of_visits hrefuses.visits) hwalk hfinish
  rcases Preparation.walk_cons_ok hwalk with ⟨kind, n, p', hrec, hstep, hrest⟩
  rw [hrefuses.digit, Option.some.injEq, Prod.mk.injEq] at hrec
  rcases hrec with ⟨rfl, rfl⟩
  have hmove := Preparation.moves_of_step hstep
  refine ⟨fun hsession => ?_, fun hsession hletter => ?_⟩
  · rcases Preparation.opened_of_refuses hrefuses hgood hsession hmove with
      ⟨literal, hliteral, hbuilder, hpieces⟩
    exact ⟨literal, p', hliteral, hstep, hbuilder, hpieces⟩
  · rcases Preparation.keeps_of_refuses hrefuses hgood hsession hletter hmove with
      ⟨r, ds, hr, hds, hkeeps⟩
    rcases Preparation.write_of_keeps hkeeps hrest hfinish with ⟨as, bs, hwrite⟩
    have hdigit := (Preparation.accepts_of_refuses hrefuses).2
    have hexpression : result.expression.toList = as ++ (r.marker ++ (ds ++ c :: bs)) := by
      simp only [hfinish, Except.map, Except.ok.injEq] at h
      rw [← h, ofDraft, String.toList_ofList, hwrite, List.append_assoc, List.append_assoc]
      rfl
    rcases htokens : Token.tokenize result.expression.toList with e | ts
    · exact ⟨e, rfl⟩
    · rw [Token.tokenize, hexpression] at htokens
      exact absurd htokens (Token.not_tokenizes_refused hds hdigit hr)

/-- What has been read of `0b:12` or `0b:18` in front of its last digit. -/
def Preparation.behindOne (session : Radix) : Preparation :=
  ⟨⟨session, .bin, some ['1'], true⟩, 0, .empty⟩

/-- The last digit of `0b:12` and `0b:18` is refused in every session. -/
theorem Preparation.refuses_behindOne (session : Radix) {c : Char} (hc : c = '2' ∨ c = '8') :
    Refuses session Registry.standard.contains ['0', 'b', ':', '1', c]
      (some '1') 4 c [] (behindOne session) := by
  have hmarker : step session Registry.standard.contains (start session)
      ⟨.marker, ['0', 'b', ':'], 0⟩ = .ok ⟨⟨session, .bin, some [], true⟩, 0, .empty⟩ := by
    cases session <;> exact eq_ok_of_toOption (by decide +kernel)
  have hone : step session Registry.standard.contains ⟨⟨session, .bin, some [], true⟩, 0, .empty⟩
      ⟨.digit, ['1'], 3⟩ = .ok (behindOne session) := by
    cases session <;> exact eq_ok_of_toOption (by decide +kernel)
  have hvisits : Visits session Registry.standard.contains ['0', 'b', ':', '1', c] (some '1') 4 [c]
      (behindOne session) := by
    have hfirst : Lexeme.recognise none (start session).builder.isHex '0' ['b', ':', '1', c] =
        some (.marker, 2) := by
      rcases hc with rfl | rfl <;> cases session <;> decide +kernel
    have hsecond : Lexeme.recognise (some ':') (Radix.bin == .hex) '1' [c] = some (.digit, 0) := by
      rcases hc with rfl | rfl <;> decide +kernel
    exact .step (.step .start hfirst hmarker) hsecond hone
  refine ⟨hvisits, ?_, ?_, ?_⟩
  · rcases hc with rfl | rfl <;> cases session <;> decide +kernel
  · exact fun hstays => Bool.false_ne_true hstays.1
  · rcases hc with rfl | rfl <;> cases session <;> decide +kernel

/-- In a session of base eight no number is read from `0b:18`. -/
theorem Prepared.refused_eight :
    Prepared.ofText Registry.standard .oct "0b:18" = .ok ⟨"0b:18", []⟩ ∧
      Refuses .oct Registry.standard.contains "0b:18".toList (some '1') 4 '8' []
        (Preparation.behindOne .oct) ∧
      Radix.oct.accepts '8' = false ∧ ∃ e, Token.tokenize "0b:18".toList = .error e := by
  have h : Prepared.ofText Registry.standard .oct "0b:18" = .ok ⟨"0b:18", []⟩ :=
    eq_ok_of_toOption (by decide +kernel)
  have hrefuses := Preparation.refuses_behindOne .oct (c := '8') (.inr rfl)
  have hnone := (refused_digit _ _ _ _ h hrefuses).2 (by decide)
  refine ⟨h, hrefuses, by decide, hnone (fun body hbody => ?_)⟩
  rw [← Option.some.inj hbody]
  decide

/-- What has been read of `7E8` in a session of base eight in front of its last
    digit. -/
def Preparation.behindLetter : Preparation :=
  ⟨⟨.oct, .oct, some ['7', 'E'], false⟩, 0, .empty⟩

/-- The base of the session refuses the last digit of `7E8`. -/
theorem Preparation.refuses_behindLetter :
    Refuses .oct Registry.standard.contains ['7', 'E', '8'] (some 'E') 2 '8' [] behindLetter := by
  have hseven : step .oct Registry.standard.contains (start .oct) ⟨.digit, ['7'], 0⟩ =
      .ok ⟨⟨.oct, .oct, some ['7'], false⟩, 0, .empty⟩ :=
    eq_ok_of_toOption (by decide +kernel)
  have hletter : step .oct Registry.standard.contains ⟨⟨.oct, .oct, some ['7'], false⟩, 0, .empty⟩
      ⟨.exponent, ['E'], 1⟩ = .ok behindLetter :=
    eq_ok_of_toOption (by decide +kernel)
  have hvisits : Visits .oct Registry.standard.contains ['7', 'E', '8'] (some 'E') 2 ['8']
      behindLetter := by
    have hfirst : Lexeme.recognise none (Radix.oct == .hex) '7' ['E', '8'] = some (.digit, 0) := by
      decide +kernel
    have hsecond : Lexeme.recognise (some '7') (Radix.oct == .hex) 'E' ['8'] =
        some (.exponent, 0) := by
      decide +kernel
    exact .step (.step .start hfirst hseven) hsecond hletter
  exact ⟨hvisits, by decide +kernel, fun hstays => Bool.false_ne_true hstays.1, by decide +kernel⟩

/-- A refused digit may be read as a number nevertheless. In a session of base ten
    the last digit of `0b:12` is a decimal factor; in one of base eight that of `7E8`
    is the exponent of a power of ten. -/
theorem Prepared.refused_read :
    (Refuses .dec Registry.standard.contains "0b:12".toList (some '1') 4 '2' []
        (Preparation.behindOne .dec) ∧
      Prepared.ofText Registry.standard .dec "0b:12" = .ok ⟨"0b:1*2", []⟩ ∧
      Token.tokenize "0b:1*2".toList = .ok [.num 1, .star, .num 2]) ∧
    Refuses .oct Registry.standard.contains "7E8".toList (some 'E') 2 '8' []
        Preparation.behindLetter ∧
      Prepared.ofText Registry.standard .oct "7E8" = .ok ⟨"0o:7E8", []⟩ ∧
      Token.tokenize "0o:7E8".toList = .ok [.num 700000000] := by
  refine ⟨⟨Preparation.refuses_behindOne .dec (.inl rfl), ?_, by decide +kernel⟩,
    Preparation.refuses_behindLetter, ?_, by decide +kernel⟩
  · exact eq_ok_of_toOption (by decide +kernel)
  · exact eq_ok_of_toOption (by decide +kernel)

end ExactCalc
