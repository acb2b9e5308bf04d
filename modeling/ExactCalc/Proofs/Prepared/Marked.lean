import ExactCalc.Proofs.Prepared.Within

/-!
# A Marked Number Behind an Operand

What becomes of a number with a marker that is typed behind another text.

The marker closes the number that is open, if one is, and the number that it opens is
multiplied with whatever operand the text ends in. The blank between them goes into an
open number without changing how it is written, and is passed over elsewhere.

One kind of operand keeps more than its own digits. Behind a refused digit every digit
is glued to it until some other lexeme comes, and a blank and a marker are not what ends
that: neither of them leaves a piece behind, so the refused number is still the last
piece when the digits of the marker arrive. They are glued to it, the literal that the
marker has opened stays empty, and its emptiness is what is reported in the end.

## Theorems

* `reach_whole`: A text in front of another one.
* `reach_blank`: A blank behind a text leaves its pieces as they are.
* `draftOf_marked`: Behind any other operand the number is one more piece.
* `walk_glued`: Digits behind a refused one leave the open literal as it is.
* `draftOf_glued`: Behind a refused digit the marker is left without digits.
* `ofText_marked`: What a number with a marker is prepared as behind a text.
-/

namespace ExactCalc

open Literal (Fits Chained)

namespace Preparation

variable {session r : Radix} {known : String → Bool} {p q : Preparation} {prev : Option Char}
  {pos length : Nat} {text rest ds : List Char} {d : Draft}

/-- A text that is prepared alone, in front of another one that no lexeme of it runs on
    into. -/
theorem reach_whole (h : draftOf session known text = .ok d) (hrest : Lexeme.Stops rest) :
    ∃ p last, Good session known last [] p ∧ p.finish text.length = .ok d ∧
      Reach session known none text rest (start session)
        (Holds p.builder p.draft.pieces p.draft.openings.length p.draft.undefinedNames) := by
  rcases good_of_draftOf h with ⟨p, last, hwalk, hfinish, hgood⟩
  have hstart : (start session).Holds (.new session) [] 0 [] := ⟨rfl, rfl, rfl, rfl⟩
  have hopens : Frame.Opens ⟨[], 0, []⟩ := fun q hq => absurd hq (Option.not_mem_none q)
  refine ⟨p, last, hgood, hfinish,
    (reach_within (within_start hstart) hopens hrest rfl rfl hwalk).mono (fun q hq => ?_)⟩
  -- Nothing is in the frame, so nothing is added and nothing filtered out.
  have hholds := hq.holds
  rw [List.append_nil, Nat.add_zero, listed_nil] at hholds
  exact hholds

theorem endsRefused_of_pieces {d' : Draft} (h : d.pieces = d'.pieces) :
    d.endsRefused = d'.endsRefused := by
  rw [Draft.endsRefused, Draft.endsRefused, h]

/-- At the end of a text the refused number is the last piece of the walk, and no literal
    is open behind it. -/
theorem endsRefused_of_finish {last : Option Char} (hgood : Good session known last [] p)
    (hfinish : p.finish length = .ok d) : p.draft.endsRefused = d.endsRefused := by
  have hpieces := (closeLast_ok (finish_ok hfinish).1).1
  rcases hcurrent : p.builder.current with _ | body
  · rw [shown, Literal.Builder.shown, Literal.Builder.finish_of_current_eq_none hcurrent] at hpieces
    exact (endsRefused_of_pieces hpieces).symm
  · rw [(hgood.typing body hcurrent).2]
    rw [shown, Literal.Builder.shown, Literal.Builder.finish_of_current_eq_some hcurrent] at hpieces
    rw [Draft.endsRefused, hpieces]

/-- A blank goes into the literal that is open, or is passed over. -/
theorem reach_blank {last : Option Char} (hgood : Good session known last [] p)
    (hdigits : ∀ literal, p.builder.finish.1 = some literal → literal.digits ≠ [])
    (hq : q.Holds p.builder p.draft.pieces p.draft.openings.length p.draft.undefinedNames) :
    Reach session known prev [' '] rest q (fun v => ∃ b, b.finish.2 = .new session ∧
      (∀ literal, b.finish.1 = some literal → literal.digits ≠ []) ∧
      b.shown p.draft.pieces = p.shown ∧
      v.Holds b p.draft.pieces p.draft.openings.length p.draft.undefinedNames) := by
  have hsep : Numeral.isSeparator ' ' = true := by decide
  rcases hcurrent : p.builder.current with _ | body
  · have hbuilder := hgood.fresh hcurrent
    rw [hbuilder] at hq hdigits
    refine (reach_separator hsep hq).mono (fun v hv => ⟨_, rfl, hdigits, ?_, hv⟩)
    rw [shown, hbuilder]
  · rcases hgood.typing body hcurrent with ⟨htyping, hrefused⟩
    have hgoes : ∀ pos, p.builder.canContinue ⟨.separator, [' '], pos⟩ = true := by
      intro pos
      rw [Literal.Builder.canContinue_eq, Literal.Builder.goesOn, Literal.Builder.isOpen, hcurrent]
      rfl
    refine (reach_taken hq (Draft.pieces_ne_refused hrefused) (by decide)
      (Lexeme.recognise_separator hsep) hgoes).mono (fun v hv => ?_)
    rw [hcurrent, Option.getD_some] at hv
    have hfinish := Literal.Builder.finish_of_current_eq_some hcurrent
    -- A separator is no digit, so the number is written as it was.
    have hblank : ∀ explicit, Literal.digits ⟨p.builder.active, explicit, body ++ [' ']⟩ =
        Literal.digits ⟨p.builder.active, explicit, body⟩ := by
      intro explicit
      rw [Literal.digits, Literal.digits, List.filter_append, List.filter_cons_of_neg (by decide),
        List.filter_nil, List.append_nil]
    refine ⟨_, ?_, fun literal hliteral => ?_, ?_, hv⟩
    · exact congrArg Literal.Builder.new htyping.base
    · rw [← Option.some.inj hliteral, hblank]
      exact hdigits ⟨p.builder.active, p.builder.explicit, body⟩ (by rw [hfinish])
    · have hnormal : Literal.normal ⟨p.builder.active, p.builder.explicit, body ++ [' ']⟩ =
          Literal.normal ⟨p.builder.active, p.builder.explicit, body⟩ := by
        rw [Literal.normal, Literal.normal, hblank]
      rw [shown, Literal.Builder.shown, Literal.Builder.shown, hfinish]
      exact congrArg (fun t => Piece.number t :: p.draft.pieces) hnormal

theorem chained_of_accepts (hds : ∀ c ∈ ds, r.accepts c = true) : Chained (Fits r) none ds := by
  suffices hall : ∀ last, Chained (Fits r) last ds from hall none
  induction ds with
  | nil => exact fun _ => trivial
  | cons c ds ih =>
      rw [List.forall_mem_cons] at hds
      exact fun last => ⟨.digit hds.1, ih hds.2 (some c)⟩

/-- Behind a text that ends in no refused digit, the number is multiplied with it. -/
theorem draftOf_marked (h : draftOf session known text = .ok d)
    (hrefused : d.endsRefused = false) (hds : ∀ c ∈ ds, r.accepts c = true) (hdigits : ds ≠ []) :
    ∃ e, draftOf session known (text ++ ([' '] ++ (r.marker ++ ds))) = .ok e ∧
      e.pieces = .number (r.marker ++ ds) :: d.pieces ∧ e.undefinedNames = d.undefinedNames := by
  have hstops : Lexeme.Stops ([' '] ++ (r.marker ++ ds) ++ []) := by
    intro c hc
    rw [← Option.some.inj hc]
    decide
  rcases reach_whole h hstops with ⟨p, last, hgood, hfinish, hreach⟩
  rcases finish_ok hfinish with ⟨hlast, hopenings, -⟩
  rcases closeLast_ok hlast with ⟨hpieces, hnames, hopened, hfull⟩
  have hnot : ∀ t qs, p.shown ≠ .refused t :: qs := by
    rw [← hpieces]
    exact Draft.pieces_ne_refused hrefused
  have hchained := chained_of_accepts hds
  have hdepth : p.draft.openings.length = 0 := by
    rw [← hopened, hopenings, List.length_nil]
  -- The blank closes the literal that is open, and the marker opens one of its own, which is
  -- still open when the text ends.
  have hwhole : Reach session known none (text ++ ([' '] ++ (r.marker ++ ds))) []
      (start session) (Holds ⟨session, r, some ds, true⟩ d.pieces 0 d.undefinedNames) := by
    refine hreach.trans (fun q hq => ?_)
    refine (reach_blank hgood hfull hq).trans (fun v hv => ?_)
    rcases hv with ⟨b, hnew, hb, hshown, hv⟩
    rw [hdepth, ← hnames] at hv
    rw [hpieces, ← hshown]
    rw [← hshown] at hnot
    exact reach_marked hv hnew hb hnot (by rfl) hchained
      (fun e he => absurd he (Option.not_mem_none e))
  have hsame : Literal.digits ⟨r, true, ds⟩ = ds := filter_of_chained hchained
  have hnormal : Literal.normal ⟨r, true, ds⟩ = r.marker ++ ds := by
    rw [Literal.normal, hsame]
    rfl
  have hfull' : ∀ literal, some (⟨r, true, ds⟩ : Literal) = some literal →
      literal.digits ≠ [] := by
    intro literal hliteral
    rw [← Option.some.inj hliteral, hsame]
    exact hdigits
  rcases draftOf_of_reach hwhole hfull' rfl with ⟨e, he, hended, hundefined⟩
  have hpieces' : e.pieces = .number (Literal.normal ⟨r, true, ds⟩) :: d.pieces := hended
  rw [hnormal] at hpieces'
  exact ⟨e, he, hpieces', hundefined⟩

/-- Digits behind a refused one are glued to it, and a literal that is open stays as it
    is. -/
theorem walk_glued {p : Preparation} (hrefused : p.draft.endsRefused = true)
    (hds : ∀ c ∈ ds, p.builder.active.accepts c = true) :
    ∃ d, walk session known prev pos ds p = .ok { p with draft := d } := by
  induction ds generalizing p prev pos with
  | nil => exact ⟨p.draft, walk_nil prev pos p⟩
  | cons c ds ih =>
      rw [List.forall_mem_cons] at hds
      rcases hds with ⟨hc, hds⟩
      -- No marker begins here, since no digit is the letter of one.
      have hmarker : Lexeme.markerTail? prev (c :: ds) = none := by
        refine Lexeme.markerTail?_eq_none (.inr (.inr (fun e he => ?_)))
        have hfits : Fits p.builder.active none e := .digit (hds e (List.mem_of_mem_head? he))
        exact not_markerLetter hfits
      have hdigit : c.isDigit = true ∨ (p.builder.isHex = true ∧ Radix.hex.accepts c = true) := by
        by_cases hhex : p.builder.active = .hex
        · exact .inr ⟨beq_iff_eq.mpr hhex, hhex ▸ hc⟩
        · exact .inl (Radix.isDigit_of_accepts hhex hc)
      have hstays : p.Stays ⟨.digit, [c], pos⟩ := ⟨hrefused, .inl rfl⟩
      have hstep : step session known p ⟨.digit, c :: ds.take 0, pos⟩ =
          .ok { p with draft := p.draft.addRefused session ⟨.digit, [c], pos⟩ } :=
        if_pos (stays_iff.mp hstays)
      rw [walk_cons (Lexeme.recognise_digit hdigit hmarker) pos hstep]
      exact ih (endsRefused_addRefused hrefused) hds

/-- A blank is passed over where no literal is open. -/
theorem walk_blank (start : Nat) (d : Draft) :
    walk session known prev pos (' ' :: rest) ⟨.new session, start, d⟩ =
      walk session known (some ' ') (pos + 1) rest ⟨.new session, start, d⟩ := by
  have haccept : (Literal.Builder.new session).accept ⟨.separator, [' '], pos⟩ =
      (⟨none, false⟩, .new session) := by
    cases session <;> rfl
  have hstep : step session known ⟨.new session, start, d⟩ ⟨.separator, ' ' :: rest.take 0, pos⟩ =
      .ok ⟨.new session, start, d⟩ := by
    unfold step
    rw [List.take_zero, if_neg (fun hs => not_stays (by decide) (stays_iff.mpr hs)), haccept]
    rfl
  exact walk_cons (Lexeme.recognise_separator (by decide)) pos hstep

/-- A marker opens a literal that begins with it, whatever the last piece is. -/
theorem walk_marker (hprev : Lexeme.opensWord prev = true) (start : Nat) (d : Draft) :
    walk session known prev pos (r.marker ++ rest) ⟨.new session, start, d⟩ =
      walk session known (some ':') (pos + 3) rest ⟨⟨session, r, some [], true⟩, pos, d⟩ := by
  have hstep : step session known ⟨.new session, start, d⟩ ⟨.marker, r.marker, pos⟩ =
      .ok ⟨⟨session, r, some [], true⟩, pos, d⟩ := by
    unfold step
    rw [if_neg (fun hs => not_stays (by decide) (stays_iff.mpr hs))]
    cases r <;> rfl
  rcases r.marker_eq with ⟨e, -, hr⟩
  rw [hr] at hstep ⊢
  exact walk_cons (Lexeme.recognise_marker hr hprev) pos hstep

/-- Behind a text that ends in a refused digit, the digits are glued to that one, and the
    marker is left without any. -/
theorem draftOf_glued (h : draftOf session known text = .ok d) (hrefused : d.endsRefused = true)
    (hds : ∀ c ∈ ds, r.accepts c = true) :
    draftOf session known (text ++ ([' '] ++ (r.marker ++ ds))) =
      .error ⟨.markerWithoutDigits, ⟨text.length + 1, text.length + 4 + ds.length⟩⟩ := by
  have hstops : Lexeme.Stops ([' '] ++ (r.marker ++ ds)) := by
    intro c hc
    rw [← Option.some.inj hc]
    decide
  rcases reach_whole h hstops with ⟨p, last, hgood, hfinish, hreach⟩
  rw [← endsRefused_of_finish hgood hfinish] at hrefused
  -- No literal is open behind a refused digit.
  have hbuilder := hgood.fresh (hgood.current_of_endsRefused hrefused)
  rcases hreach 0 with ⟨⟨builder, start, e⟩, hwalk, hq⟩
  have hnew : builder = .new session := hq.builder.trans hbuilder
  have hlast : e.endsRefused = true := (endsRefused_of_pieces hq.pieces).trans hrefused
  have hmarked : walk session known (some ' ') (0 + text.length + 1) (r.marker ++ ds)
      ⟨.new session, start, e⟩ =
        walk session known (some ':') (0 + text.length + 1 + 3) ds
          ⟨⟨session, r, some [], true⟩, 0 + text.length + 1, e⟩ := walk_marker rfl start e
  have hdigits : ∃ e', walk session known (some ':') (0 + text.length + 1 + 3) ds
      ⟨⟨session, r, some [], true⟩, 0 + text.length + 1, e⟩ =
        .ok ⟨⟨session, r, some [], true⟩, 0 + text.length + 1, e'⟩ := walk_glued hlast hds
  rcases hdigits with ⟨e', hglued⟩
  rw [hnew, List.singleton_append, walk_blank, hmarked, hglued] at hwalk
  rw [draftOf_eq_walk, List.singleton_append, hwalk]
  -- The literal of the marker is still empty when the text ends.
  have hlength : (text ++ ' ' :: (r.marker ++ ds)).length = text.length + 4 + ds.length := by
    have hmarker : r.marker.length = 3 := by cases r <;> rfl
    rw [List.length_append, List.length_cons, List.length_append, hmarker]
    omega
  rw [hlength, ← Nat.zero_add (text.length + 1), ← Nat.add_assoc]
  rfl

end Preparation

namespace Prepared

/-- A number with a marker, typed behind a blank, is multiplied with the operand before
    it, unless that operand ends in a refused digit. Behind such a digit its own digits
    are glued to the refused number, and the marker is reported for having none. -/
theorem ofText_marked (registry : Registry) (session r : Radix) {text ds : String} {d : Draft}
    (h : Preparation.draftOf session registry.contains text.toList = .ok d)
    (hne : (ofDraft d).expression ≠ "") (hds : ds ≠ "")
    (haccepts : ∀ c ∈ ds.toList, r.accepts c = true) :
    ofText registry session text = .ok (ofDraft d) ∧
      ofText registry session (text ++ " " ++ String.ofList r.marker ++ ds) =
        if d.endsRefused then
          .error ⟨.markerWithoutDigits, ⟨text.length + 1, text.length + 4 + ds.length⟩⟩
        else
          .ok ⟨(ofDraft d).expression ++ "*" ++ String.ofList r.marker ++ ds,
            (ofDraft d).undefinedNames⟩ := by
  refine ⟨by rw [ofText, h]; rfl, ?_⟩
  have hblank : " ".toList = [' '] := rfl
  have htext : (text ++ " " ++ String.ofList r.marker ++ ds).toList =
      text.toList ++ ([' '] ++ (r.marker ++ ds.toList)) := by
    simp only [String.toList_append, String.toList_ofList, hblank, List.append_assoc]
  have hdigits : ds.toList ≠ [] := fun hnil => hds (String.toList_inj.mp hnil)
  rw [ofText, htext]
  by_cases hrefused : d.endsRefused = true
  · rw [if_pos hrefused, Preparation.draftOf_glued h hrefused haccepts]
    rfl
  · rw [if_neg hrefused]
    rw [Bool.not_eq_true] at hrefused
    rcases Preparation.draftOf_marked h hrefused haccepts hdigits with ⟨e, he, hpieces, hnames⟩
    rcases Preparation.row_of_draftOf h with ⟨hrow, hincomplete, -⟩
    -- A row that is closed and not empty ends in an operand, so the sign is written between.
    have hends := Piece.ends_of_closed hrow hincomplete (pieces_ne_nil hne)
    have hexpression : String.ofList (Piece.write e.pieces.reverse) =
        (ofDraft d).expression ++ "*" ++ String.ofList r.marker ++ ds := by
      have hstar : "*".toList = ['*'] := rfl
      rw [← String.toList_inj, String.toList_ofList, hpieces, Piece.write_reverse_cons,
        Piece.link_of_ends rfl hends]
      simp only [ofDraft, String.toList_append, String.toList_ofList, hstar, Piece.text,
        List.append_assoc]
    rw [he, ← hexpression]
    exact congrArg (fun names => Except.ok (Prepared.mk _ names)) hnames

/-- Base two refuses the digit `2`, and the `1` behind the marker is glued to it. -/
theorem ofText_marked_glued :
    ofText Registry.standard .bin "2" = .ok ⟨"0b:2", []⟩ ∧
      ofText Registry.standard .bin "2 0b:1" = .error ⟨.markerWithoutDigits, ⟨2, 6⟩⟩ := by
  have h : Preparation.draftOf .bin Registry.standard.contains "2".toList =
      .ok ⟨[.refused ['0', 'b', ':', '2']], ⟨0, 1⟩, [], []⟩ :=
    eq_ok_of_toOption (by decide +kernel)
  have hboth : ofText Registry.standard .bin "2" = .ok (ofDraft _) ∧
      ofText Registry.standard .bin ("2" ++ " " ++ String.ofList Radix.bin.marker ++ "1") =
        .error ⟨.markerWithoutDigits, ⟨"2".length + 1, "2".length + 4 + "1".length⟩⟩ :=
    ofText_marked Registry.standard .bin .bin h (by decide +kernel) (by decide +kernel)
      (Text.forall_of_all (by decide +kernel))
  have hprepared : ofDraft ⟨[.refused ['0', 'b', ':', '2']], ⟨0, 1⟩, [], []⟩ = ⟨"0b:2", []⟩ :=
    rfl
  have htext : "2" ++ " " ++ String.ofList Radix.bin.marker ++ "1" = "2 0b:1" := by decide +kernel
  have hlength : "2".length = 1 ∧ "1".length = 1 := by decide +kernel
  rw [hprepared, htext, hlength.1, hlength.2] at hboth
  exact hboth

end Prepared

end ExactCalc
