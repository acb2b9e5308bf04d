import ExactCalc.Proofs.Prepared.Row

/-!
# Reading a Piece Back

How the walk reads the text of one piece, whatever comes after it.

Where a piece comes from does not matter to what it becomes, so the state of a
walk is described by its builder, its pieces, how many brackets are open, and
the undefined names. `Reach` says that reading a text leads from one state to
states of a certain description. Such statements are put one after the other as
the texts are.

An operand is read back as the piece it is wherever the row so far asks for an
operand and the character before runs into nothing. A number stays open in the
builder, and the walk is where it would be if the number had been typed there.

## Main definitions

* `Holds`: The description of a state.
* `Reach`: Reading a text leads to states of a description.
* `Aligned`: The character before is the last of what has been typed.

## Theorems

* `Reach.trans`: Two texts one after the other.
* `reach_operator`, `reach_opening`, `reach_function` and the like: One lexeme that
  belongs to no number.
* `reach_marker`, `reach_typed`: The text of a number.
* `reach_refused`: A number that holds a refused digit.
* `draftOf_of_reach`: What a text that is read so far is prepared as.
-/

namespace ExactCalc

open Literal (Fits Trails Chained)

namespace Preparation

open Piece (Row WellMade NumberText undefinedIn ends)

/-- A walk with a certain builder, certain pieces, so many open brackets, and
    certain undefined names. -/
structure Holds (b : Literal.Builder) (ps : List Piece) (n : Nat) (us : List String)
    (p : Preparation) : Prop where
  builder : p.builder = b
  pieces : p.draft.pieces = ps
  depth : p.draft.openings.length = n
  names : p.draft.undefinedNames = us

/-- Reading a text in front of another leads from a state to one of a certain
    description, whatever the position. -/
def Reach (session : Radix) (known : String → Bool) (prev : Option Char) (text rest : List Char)
    (p : Preparation) (Q : Preparation → Prop) : Prop :=
  ∀ pos, ∃ q, walk session known prev pos (text ++ rest) p =
    walk session known (text.getLast?.or prev) (pos + text.length) rest q ∧ Q q

section

variable {session : Radix} {known : String → Bool} {prev : Option Char} {text rest : List Char}
  {p : Preparation} {Q R : Preparation → Prop}

theorem Reach.refl (h : Q p) : Reach session known prev [] rest p Q :=
  fun _ => ⟨p, rfl, h⟩

theorem Reach.mono (h : Reach session known prev text rest p Q) (hqr : ∀ q, Q q → R q) :
    Reach session known prev text rest p R := by
  intro pos
  rcases h pos with ⟨q, hwalk, hq⟩
  exact ⟨q, hwalk, hqr q hq⟩

theorem Reach.trans {more : List Char} (h : Reach session known prev text (more ++ rest) p Q)
    (hnext : ∀ q, Q q → Reach session known (text.getLast?.or prev) more rest q R) :
    Reach session known prev (text ++ more) rest p R := by
  intro pos
  rcases h pos with ⟨q, hwalk, hq⟩
  rcases hnext q hq (pos + text.length) with ⟨r, hwalk', hr⟩
  refine ⟨r, ?_, hr⟩
  rw [List.append_assoc, hwalk, hwalk', List.getLast?_append, List.length_append, Nat.add_assoc,
    Option.or_assoc]

theorem reach_of_moves {c : Char} {w : List Char} {kind : Lexeme.Kind}
    (hrec : Lexeme.recognise prev p.builder.isHex c (w ++ rest) = some (kind, w.length))
    (hmove : ∀ pos, ∃ b d, Moves session known p ⟨kind, c :: w, pos⟩ b d ∧
      ∀ q : Preparation, q.builder = b → q.draft = d → Q q) :
    Reach session known prev (c :: w) rest p Q := by
  intro pos
  rcases hmove pos with ⟨b, d, hmoves, hq⟩
  rcases step_of_moves hmoves with ⟨q, hstep, hb, hd⟩
  refine ⟨q, ?_, hq q hb hd⟩
  have htake : (w ++ rest).take w.length = w := List.take_left
  have hdrop : (w ++ rest).drop w.length = rest := List.drop_left
  rw [List.cons_append, walk_cons hrec pos (by rw [htake]; exact hstep), htake, hdrop,
    List.getLast?_cons]
  rfl

/-- Only what can stand inside a number stays with a refused digit. -/
theorem not_stays {kind : Lexeme.Kind} {t : List Char} {pos : Nat}
    (h : kind ≠ .digit ∧ kind ≠ .point ∧ kind ≠ .exponent) : ¬p.Stays ⟨kind, t, pos⟩ := by
  rintro ⟨-, hkind | hkind | hkind⟩
  · exact h.1 hkind
  · exact h.2.1 hkind
  · exact h.2.2 hkind

theorem not_stays_of_pieces {l : Lexeme} (h : ∀ t qs, p.draft.pieces ≠ .refused t :: qs) :
    ¬p.Stays l := by
  rintro ⟨hends, -⟩
  rcases Draft.pieces_of_endsRefused hends with ⟨t, qs, hpieces⟩
  exact h t qs hpieces

/-- The row in front of a lexeme that closes the open literal. -/
theorem closes_shown (l : Lexeme) (opens : Bool)
    (hdigits : ∀ literal, p.builder.finish.1 = some literal → literal.digits ≠ []) :
    ∃ d, p.Closes l opens d ∧ d.pieces = p.shown ∧ d.openings = p.draft.openings ∧
      d.undefinedNames = p.draft.undefinedNames := by
  unfold shown Literal.Builder.shown
  rcases hfinish : p.builder.finish.1 with _ | literal
  · exact ⟨_, .nothing hfinish, rfl, rfl, rfl⟩
  · exact ⟨_, .number literal hfinish (hdigits literal hfinish), rfl, rfl, rfl⟩

/-- A lexeme of its own: it closes the open literal and adds its piece. -/
theorem reach_added {c : Char} {w : List Char} {kind : Lexeme.Kind} {b : Literal.Builder}
    {ps ps' : List Piece} {n n' : Nat} {us us' : List String} (hp : p.Holds b ps n us)
    (hrec : Lexeme.recognise prev b.isHex c (w ++ rest) = some (kind, w.length))
    (hkind : kind.group ≠ .number) (hsign : ∀ pos, b.takesSign ⟨kind, c :: w, pos⟩ = false)
    (hdigits : ∀ literal, b.finish.1 = some literal → literal.digits ≠ [])
    (hadd : ∀ pos (d : Draft), d.pieces = b.shown ps → d.openings.length = n →
      d.undefinedNames = us → ∃ d', d.addLexeme session known ⟨kind, c :: w, pos⟩ = .ok d' ∧
        d'.pieces = ps' ∧ d'.openings.length = n' ∧ d'.undefinedNames = us') :
    Reach session known prev (c :: w) rest p (Holds b.finish.2 ps' n' us') := by
  rcases hp with ⟨rfl, rfl, rfl, rfl⟩
  refine reach_of_moves hrec (fun pos => ?_)
  rcases closes_shown ⟨kind, c :: w, pos⟩ false hdigits with ⟨d, hd, hpieces, hopenings, hnames⟩
  rcases hadd pos d hpieces (by rw [hopenings]) hnames with ⟨d', hd', hpieces', hn', hus'⟩
  have hgoes : ∀ b' : Literal.Builder, b'.goesOn ⟨kind, c :: w, pos⟩ = false := by
    intro b'
    cases kind <;> first | rfl | exact absurd rfl hkind
  have hstays : ¬p.Stays ⟨kind, c :: w, pos⟩ := by
    refine not_stays ⟨?_, ?_, ?_⟩ <;> rintro rfl <;> exact absurd rfl hkind
  refine ⟨_, d', .added d d' hstays ?_ ?_ hd hd', fun q hb hq => ⟨hb, ?_, ?_, ?_⟩⟩
  · rw [Literal.Builder.canContinue_eq, hgoes, hsign, Bool.or_self]
  · rw [Literal.Builder.canContinue_eq, hgoes,
      Literal.Builder.takesSign_of_current_eq_none (Literal.Builder.current_finish _), Bool.or_self]
  · rw [hq, hpieces']
  · rw [hq, hn']
  · rw [hq, hus']

theorem takesSign_of_ne {b : Literal.Builder} {kind : Lexeme.Kind} {c : Char} {w : List Char}
    (hplus : c ≠ '+') (hminus : c ≠ '-') (pos : Nat) :
    b.takesSign ⟨kind, c :: w, pos⟩ = false := by
  have hne : ∀ e : Char, c ≠ e → (c :: w == [e]) = false := by
    intro e he
    rw [beq_eq_false_iff_ne, ne_eq, List.cons.injEq]
    exact fun h => he h.1
  rw [Literal.Builder.takesSign, hne _ hplus, hne _ hminus, Bool.or_self, Bool.and_false,
    Bool.false_and]

section Lexemes

variable {b : Literal.Builder} {ps : List Piece} {n : Nat} {us : List String}
  (hp : p.Holds b ps n us)
  (hdigits : ∀ literal, b.finish.1 = some literal → literal.digits ≠ [])
include hp hdigits

/-- A sign, which is written as a plain one. -/
theorem reach_operator {c e : Char} (hc : c ∈ Lexeme.operatorSigns)
    (hnormal : ∀ pos, Lexeme.normal ⟨.operator, [c], pos⟩ = [e])
    (hsign : ∀ pos, b.takesSign ⟨.operator, [c], pos⟩ = false)
    (hplace : e = '+' ∨ e = '-' ∨ ends (b.shown ps) = true) :
    Reach session known prev [c] rest p
      (Holds b.finish.2 (.operator [e] :: b.shown ps) n us) := by
  refine reach_added (w := []) hp (Lexeme.recognise_operator hc) (by decide) hsign hdigits
    (fun pos d hpieces hn hus => ?_)
  -- Only the signs of a sum stand where no operand has ended.
  have hallowed : ¬(([e] = ['*'] ∨ [e] = ['/'] ∨ [e] = ['^']) ∧ d.awaitsOperand = true) := by
    rw [Piece.awaitsOperand_eq, hpieces]
    rcases hplace with rfl | rfl | hends
    · exact fun h => absurd h.1 (by decide)
    · exact fun h => absurd h.1 (by decide)
    · rw [hends]
      exact fun h => absurd h.2 Bool.false_ne_true
  refine ⟨d.add (.operator [e]) ⟨pos, pos + 1⟩, ?_, ?_, hn, hus⟩
  · simp only [Draft.addLexeme, hnormal, hallowed, if_false]
    rfl
  · rw [← hpieces]
    rfl

theorem reach_sign {c : Char} (hc : c ∈ ['+', '-', '*', '/', '^'])
    (hsign : ∀ pos, b.takesSign ⟨.operator, [c], pos⟩ = false)
    (hplace : c = '+' ∨ c = '-' ∨ ends (b.shown ps) = true) :
    Reach session known prev [c] rest p
      (Holds b.finish.2 (.operator [c] :: b.shown ps) n us) :=
  reach_operator hp hdigits (Lexeme.mem_operatorSigns hc) (Lexeme.normal_sign hc) hsign hplace

theorem reach_opening :
    Reach session known prev ['('] rest p
      (Holds b.finish.2 (.opening :: b.shown ps) (n + 1) us) := by
  refine reach_added (w := []) hp Lexeme.recognise_opening (by decide)
    (takesSign_of_ne (by decide) (by decide)) hdigits (fun pos d hpieces hn hus => ?_)
  refine ⟨_, rfl, ?_, ?_, hus⟩
  · rw [← hpieces]
    rfl
  · rw [← hn]
    rfl

theorem reach_closing {m : Nat} (hn : n = m + 1) (hends : ends (b.shown ps) = true) :
    Reach session known prev [')'] rest p (Holds b.finish.2 (.closing :: b.shown ps) m us) := by
  refine reach_added (w := []) hp Lexeme.recognise_closing (by decide)
    (takesSign_of_ne (by decide) (by decide)) hdigits (fun pos d hpieces hdepth hus => ?_)
  rcases hopenings : d.openings with _ | ⟨first, outer⟩
  · rw [hopenings, List.length_nil, hn] at hdepth
    exact absurd hdepth (Nat.succ_ne_zero m).symm
  rw [← hpieces] at hends
  have hoperand := Piece.complete_of_ends hends
  refine ⟨_, Draft.close_eq_ok.mpr ⟨first, outer, hopenings, hoperand.1, hoperand.2, rfl⟩, ?_, ?_,
    hus⟩
  · rw [← hpieces]
    rfl
  · rw [hopenings, List.length_cons, hn] at hdepth
    exact Nat.succ.inj hdepth

theorem reach_function {t : List Char} (ht : WellMade session (.function t))
    (hrest : t ≠ [rootSign] → ∀ d ∈ rest.head?, isNameChar d = false) :
    Reach session known prev t rest p (Holds b.finish.2 (.function t :: b.shown ps) n us) := by
  have hadd : ∀ pos (d : Draft), d.pieces = b.shown ps → d.openings.length = n →
      d.undefinedNames = us → ∃ d', d.addLexeme session known ⟨.function, t, pos⟩ = .ok d' ∧
        d'.pieces = .function t :: b.shown ps ∧ d'.openings.length = n ∧
        d'.undefinedNames = us := by
    intro pos d hpieces hn hus
    refine ⟨_, rfl, ?_, hn, hus⟩
    rw [← hpieces]
    rfl
  cases ht with
  | root =>
      exact reach_added (w := []) hp Lexeme.recognise_root (by decide)
        (takesSign_of_ne (by decide) (by decide)) hdigits hadd
  | called ht =>
      have hall : ∀ name ∈ functionNames, name ≠ [rootSign] ∧ name ≠ [] ∧ name.head? ≠ some '+' ∧
          name.head? ≠ some '-' := by decide
      rcases hall t ht with ⟨hroot, hne, hplus, hminus⟩
      rcases t with _ | ⟨c, w⟩
      · exact absurd rfl hne
      simp only [List.head?_cons, ne_eq, Option.some.injEq] at hplus hminus
      exact reach_added hp (Lexeme.recognise_called ht (hrest hroot)) (by decide)
        (takesSign_of_ne hplus hminus) hdigits hadd

theorem reach_constant {t : List Char} (ht : WellMade session (.constant t))
    (hrest : ∀ d ∈ rest.head?, isNameChar d = false)
    (hprev : Lexeme.endsMantissa prev = false)
    (hhex : b.isHex = true → ∀ c ∈ t.head?, Radix.hex.accepts c = false)
    (hus : us = undefinedIn known (b.shown ps)) :
    Reach session known prev t rest p
      (Holds b.finish.2 (.constant t :: b.shown ps) n
        (undefinedIn known (.constant t :: b.shown ps))) := by
  cases ht with
  | @constant c w hc hw hname =>
      have hclass : c ≠ '+' ∧ c ≠ '-' := by
        refine ⟨?_, ?_⟩ <;> rintro rfl <;> exact absurd hc (by decide)
      refine reach_added hp
        (Lexeme.recognise_name hc hw hrest hname hprev (fun h => hhex h c rfl)) (by decide)
        (takesSign_of_ne hclass.1 hclass.2) hdigits (fun pos d hpieces hn hnames => ?_)
      have hundefined : d.undefinedNames = undefinedIn known d.pieces := by
        rw [hnames, hus, hpieces]
      refine ⟨_, congrArg Except.ok (addConstant_eq (Lexeme.normal_name hc pos) hundefined), ?_, hn,
        ?_⟩
      · rw [← hpieces]
        rfl
      · rw [← hpieces]

end Lexemes

/-- A separator where no number is open is passed over. -/
theorem reach_separator {c : Char} {ps : List Piece} {n : Nat} {us : List String}
    (hc : Numeral.isSeparator c = true) (hp : p.Holds (.new session) ps n us) :
    Reach session known prev [c] rest p (Holds (.new session) ps n us) := by
  rcases hp with ⟨hb, rfl, rfl, rfl⟩
  refine reach_of_moves (w := []) (Lexeme.recognise_separator hc) (fun pos => ?_)
  have hclass : c ≠ '+' ∧ c ≠ '-' := by
    refine ⟨?_, ?_⟩ <;> rintro rfl <;> exact absurd hc (by decide)
  have hnone : p.builder.finish.1 = none := by
    rw [hb]
    rfl
  have hgoes : p.builder.canContinue ⟨.separator, [c], pos⟩ = false := by
    rw [Literal.Builder.canContinue_eq, takesSign_of_ne hclass.1 hclass.2, hb]
    rfl
  have hnext : p.builder.finish.2.canContinue ⟨.separator, [c], pos⟩ = false := by
    rw [hb] at hgoes ⊢
    exact hgoes
  refine ⟨_, p.draft, .added p.draft p.draft ?_ hgoes hnext (.nothing hnone) rfl,
    fun q hq hd => ⟨?_, ?_, ?_, ?_⟩⟩
  · exact not_stays (by decide)
  · rw [hq, hb]
    rfl
  · rw [hd]
  · rw [hd]
  · rw [hd]

/-- A marker closes the open literal and opens the next one. -/
theorem reach_marker {b : Literal.Builder} {ps : List Piece} {n : Nat} {us : List String}
    (hp : p.Holds b ps n us) (hnew : b.finish.2 = .new session)
    (hdigits : ∀ literal, b.finish.1 = some literal → literal.digits ≠ [])
    (hprev : Lexeme.opensWord prev = true) (r : Radix) :
    Reach session known prev r.marker rest p
      (Holds ⟨session, r, some [], true⟩ (b.shown ps) n us) := by
  rcases hp with ⟨rfl, rfl, rfl, rfl⟩
  have habsorb : ∀ pos, (Literal.Builder.new session).absorb ⟨.marker, r.marker, pos⟩ =
      ⟨session, r, some [], true⟩ := by
    intro pos
    rw [Literal.Builder.absorb, if_pos rfl, Radix.ofMarker?_marker]
    rfl
  rcases r.marker_eq with ⟨d, -, hr⟩
  rw [hr] at habsorb ⊢
  refine reach_of_moves (Lexeme.recognise_marker (r := r) hr hprev) (fun pos => ?_)
  have hstays : ¬p.Stays ⟨.marker, ['0', d, ':'], pos⟩ := not_stays (by decide)
  have hopens : (Literal.Builder.new session).canContinue ⟨.marker, ['0', d, ':'], pos⟩ = true := by
    rw [Literal.Builder.canContinue_eq]
    rfl
  -- With nothing open the marker is taken in, otherwise it closes what is open.
  rcases hcurrent : p.builder.current with _ | body
  · have hfinish := Literal.Builder.finish_of_current_eq_none hcurrent
    have hbuilder : p.builder = .new session := by
      rw [← hnew, hfinish]
    rw [← hbuilder] at hopens habsorb
    refine ⟨_, _, .taken hstays hopens, fun q hq hd => ⟨?_, ?_, ?_, ?_⟩⟩
    · rw [hq, habsorb]
    · rw [hd, Literal.Builder.shown, hfinish]
    · rw [hd]
    · rw [hd]
  · rcases closes_shown ⟨.marker, ['0', d, ':'], pos⟩ true hdigits with
      ⟨closed, hclosed, hpieces, hopenings, hnames⟩
    have hgoes : p.builder.canContinue ⟨.marker, ['0', d, ':'], pos⟩ = false := by
      rw [Literal.Builder.canContinue_eq, takesSign_of_ne (by decide) (by decide),
        Literal.Builder.goesOn, Literal.Builder.isOpen, hcurrent]
      rfl
    rw [← hnew] at hopens habsorb
    refine ⟨_, closed, .opened closed hstays hgoes hopens hclosed, fun q hq hd => ⟨?_, ?_, ?_, ?_⟩⟩
    · rw [hq, habsorb]
    · rw [hd, hpieces, shown]
    · rw [hd, hopenings]
    · rw [hd, hnames]

/-- No character that goes on with a number is the letter of a marker. -/
theorem not_markerLetter {r : Radix} {last : Option Char} {c : Char} (h : Fits r last c) :
    c ∉ ['b', 'o', 'd', 'x'] := by
  have hall : ∀ c ∈ ['b', 'o', 'd', 'x'], r.accepts c = false ∧ c ≠ '.' ∧ c ≠ exponentLetter ∧
      c ≠ '+' ∧ c ≠ '-' := by
    cases r <;> exact Text.forall_of_all (by decide)
  intro hc
  rcases hall c hc with ⟨hdigit, hpoint, hexp, hplus, hminus⟩
  cases h with
  | digit h =>
      rw [hdigit] at h
      exact absurd h Bool.false_ne_true
  | point h => exact hpoint h
  | exponent _ h => exact hexp h
  | sign _ h => exact h.elim hplus hminus

/-- A decimal digit that a base lacks is no zero, and no digit is a sign. -/
theorem class_of_foreign {r : Radix} {e : Char} (he : e.isDigit = true)
    (hr : r.accepts e = false) : e ≠ '0' ∧ e ≠ '+' ∧ e ≠ '-' := by
  refine ⟨?_, ?_, ?_⟩ <;> rintro rfl
  · exact absurd hr (by cases r <;> decide)
  · exact absurd he (by decide)
  · exact absurd he (by decide)

/-- A marker begins with a zero, which stands in words. -/
theorem head_marker (r : Radix) (ds : List Char) :
    ∀ c ∈ (r.marker ++ ds).head?, isNameChar c = true := by
  intro c hc
  rcases r.marker_eq with ⟨d, -, hr⟩
  rw [hr, List.cons_append, List.head?_cons, Option.mem_some_iff] at hc
  rw [← hc]
  decide

/-- The character before is the last of what has been typed, or nothing has been
    typed and it allows no power of ten. -/
def Aligned (prev : Option Char) (body : List Char) : Prop :=
  body.getLast? = prev ∨ (body = [] ∧ Lexeme.endsMantissa prev = false)

/-- A character that goes on with the open number is taken into it. -/
theorem continues_of_fits {b : Literal.Builder} {c : Char} {cs : List Char}
    (h : Fits b.active (b.current.getD []).getLast? c) (hprev : Aligned prev (b.current.getD []))
    (hmarker : Lexeme.markerTail? prev (c :: cs) = none) :
    ∃ kind, kind ≠ .marker ∧ Lexeme.recognise prev b.isHex c cs = some (kind, 0) ∧
      ∀ pos, b.canContinue ⟨kind, [c], pos⟩ = true := by
  have hgo : ∀ kind pos, b.goesOn ⟨kind, [c], pos⟩ = true →
      b.canContinue ⟨kind, [c], pos⟩ = true := by
    intro kind pos hgoes
    rw [Literal.Builder.canContinue_eq, hgoes, Bool.true_or]
  have hplain : b.active ≠ .hex → b.isHex = false := fun hr => beq_eq_false_iff_ne.mpr hr
  cases h with
  | digit h =>
      refine ⟨.digit, by decide, Lexeme.recognise_digit ?_ hmarker, fun pos => hgo _ pos h⟩
      by_cases hr : b.active = .hex
      · rw [hr] at h
        exact .inr ⟨beq_iff_eq.mpr hr, h⟩
      · exact .inl (Radix.isDigit_of_accepts hr h)
  | point h =>
      rw [h]
      exact ⟨.point, by decide, Lexeme.recognise_point, fun pos => h ▸ hgo _ pos rfl⟩
  | exponent hr h hmantissa =>
      -- The letter of a power needs a digit before it, so something has been typed.
      have hbefore : Lexeme.endsMantissa prev = true := by
        rcases hprev with hlast | ⟨hnil, -⟩
        · rwa [← hlast]
        · rw [hnil] at hmantissa
          exact absurd hmantissa Bool.false_ne_true
      rw [hplain hr, h]
      exact ⟨.exponent, by decide, Lexeme.recognise_exponent hbefore, fun pos => h ▸ hgo _ pos rfl⟩
  | sign hr h hexp =>
      have hmem : c ∈ Lexeme.operatorSigns := by
        rcases h with rfl | rfl <;> decide
      have hends : b.endsInExponent = true := by
        unfold Literal.Builder.endsInExponent
        rcases hcurrent : b.current with _ | body
        · rw [hcurrent] at hexp
          cases hexp
        · rw [hcurrent] at hexp
          exact beq_iff_eq.mpr hexp
      refine ⟨.operator, by decide, Lexeme.recognise_operator hmem, fun pos => ?_⟩
      rw [Literal.Builder.canContinue_eq, Literal.Builder.takesSign, hplain hr, hends]
      rcases h with rfl | rfl <;> rfl

/-- A character of its own lexeme is taken into the number. -/
theorem reach_taken {b : Literal.Builder} {ps : List Piece} {n : Nat} {us : List String} {c : Char}
    {kind : Lexeme.Kind} (hp : p.Holds b ps n us) (hrefused : ∀ t qs, ps ≠ .refused t :: qs)
    (hkind : kind ≠ .marker) (hrec : Lexeme.recognise prev b.isHex c rest = some (kind, 0))
    (hgoes : ∀ pos, b.canContinue ⟨kind, [c], pos⟩ = true) :
    Reach session known prev [c] rest p
      (Holds { b with current := some (b.current.getD [] ++ [c]) } ps n us) := by
  rcases hp with ⟨rfl, rfl, rfl, rfl⟩
  refine reach_of_moves (w := []) hrec (fun pos => ?_)
  refine ⟨_, _, .taken (not_stays_of_pieces hrefused) (hgoes pos), fun q hq hd => ⟨?_, ?_, ?_, ?_⟩⟩
  · rw [hq, absorb_of_ne_marker hkind]
  · rw [hd]
  · rw [hd]
  · rw [hd]

theorem reach_typed {b : Literal.Builder} {ps : List Piece} {n : Nat} {us : List String}
    {ds : List Char} (hp : p.Holds b ps n us) (hrefused : ∀ t qs, ps ≠ .refused t :: qs)
    (hds : Chained (Fits b.active) (b.current.getD []).getLast? ds)
    (hprev : Aligned prev (b.current.getD [])) (hne : ds ≠ [])
    (hrest : ds.getLast? = some '0' → ∀ d ∈ rest.head?, d ∉ ['b', 'o', 'd', 'x']) :
    Reach session known prev ds rest p
      (Holds { b with current := some (b.current.getD [] ++ ds) } ps n us) := by
  induction ds generalizing prev p b with
  | nil => exact absurd rfl hne
  | cons c ds ih =>
      rcases hds with ⟨hc, hds⟩
      -- A zero begins a marker only in front of a letter that no number goes on with.
      have hmarker : Lexeme.markerTail? prev (c :: (ds ++ rest)) = none := by
        by_cases hzero : c = '0'
        · refine Lexeme.markerTail?_eq_none (.inr (.inr ?_))
          cases ds with
          | nil => exact hrest (by rw [hzero]; rfl)
          | cons e es =>
            intro d hd
            rw [List.cons_append, List.head?_cons, Option.mem_some_iff] at hd
            rw [← hd]
            exact not_markerLetter hds.1
        · exact Lexeme.markerTail?_eq_none (.inl hzero)
      rcases continues_of_fits hc hprev hmarker with ⟨kind, hkind, hrec, hgoes⟩
      have hone : Reach session known prev [c] (ds ++ rest) p
          (Holds { b with current := some (b.current.getD [] ++ [c]) } ps n us) :=
        reach_taken hp hrefused hkind hrec hgoes
      cases ds with
      | nil => exact hone
      | cons e es =>
          have hlast : (b.current.getD [] ++ [c]).getLast? = some c := List.getLast?_concat ..
          refine Reach.trans (show Reach session known prev [c] ((e :: es) ++ rest) p _ from hone)
            (fun q hq => ?_)
          have hmore := ih hq (by rw [Option.getD_some, hlast]; exact hds) (.inl hlast)
            (List.cons_ne_nil _ _) (by rw [List.getLast?_cons_cons] at hrest; exact hrest)
          simp only [Option.getD_some, List.append_assoc, List.singleton_append] at hmore
          exact hmore

theorem filter_of_chained {r : Radix} {last : Option Char} {ds : List Char}
    (h : Chained (Fits r) last ds) : ds.filter (!Numeral.isSeparator ·) = ds := by
  induction ds generalizing last with
  | nil => rfl
  | cons c ds ih => rw [List.filter_cons_of_pos (by rw [h.1.not_separator]; rfl), ih h.2]

/-- A marker and digits behind it stay open as one literal. -/
theorem reach_marked {b : Literal.Builder} {r : Radix} {ds : List Char} {ps : List Piece} {n : Nat}
    {us : List String} (hp : p.Holds b ps n us) (hnew : b.finish.2 = .new session)
    (hdigits : ∀ literal, b.finish.1 = some literal → literal.digits ≠ [])
    (hrefused : ∀ t qs, b.shown ps ≠ .refused t :: qs) (hprev : Lexeme.opensWord prev = true)
    (hds : Chained (Fits r) none ds) (hrest : ∀ d ∈ rest.head?, d ∉ ['b', 'o', 'd', 'x']) :
    Reach session known prev (r.marker ++ ds) rest p
      (Holds ⟨session, r, some ds, true⟩ (b.shown ps) n us) := by
  refine (reach_marker hp hnew hdigits hprev r).trans (fun q hq => ?_)
  cases ds with
  | nil => exact .refl hq
  | cons d ds =>
      rw [Radix.getLast?_marker]
      exact reach_typed hq hrefused hds (.inr ⟨rfl, rfl⟩) (List.cons_ne_nil _ _) (fun _ => hrest)

/-- The text of a number stays open with all its digits. -/
theorem reach_number {r : Radix} {t ds : List Char} {ps : List Piece} {n : Nat} {us : List String}
    (hp : p.Holds (.new session) ps n us) (hrefused : ∀ t qs, ps ≠ .refused t :: qs)
    (ht : NumberText session t r ds) (hne : ds ≠ []) (hds : Chained (Fits r) none ds)
    (hmantissa : Lexeme.endsMantissa prev = false)
    (hprev : (∀ c ∈ t.head?, isNameChar c = true) → Lexeme.opensWord prev = true)
    (hrest : ∀ d ∈ rest.head?, d ∉ ['b', 'o', 'd', 'x']) :
    ∃ explicit, Literal.normal ⟨r, explicit, ds⟩ = t ∧
      Reach session known prev t rest p (Holds ⟨session, r, some ds, explicit⟩ ps n us) := by
  have hdigits : ∀ explicit, Literal.digits ⟨r, explicit, ds⟩ = ds :=
    fun _ => filter_of_chained hds
  cases ht with
  | marked =>
      refine ⟨true, ?_, reach_marked hp rfl (Literal.Builder.digits_of_new session) hrefused
        (hprev (head_marker r ds)) hds hrest⟩
      rw [Literal.normal, hdigits]
      rfl
  | plain _ hsession =>
      subst hsession
      refine ⟨false, ?_, ?_⟩
      · rw [Literal.normal, hdigits]
        exact if_neg Bool.false_ne_true
      · exact reach_typed hp hrefused hds (.inr ⟨rfl, hmantissa⟩) hne (fun _ => hrest)

/-- Digits, points and powers of ten stay with the refused digit before them. -/
theorem reach_trailing {t es : List Char} {ps : List Piece} {n : Nat} {us : List String}
    (hp : p.Holds (.new session) (.refused t :: ps) n us) (hhex : session ≠ .hex)
    (hlast : t.getLast? = prev) (hprev : Lexeme.opensWord prev = false)
    (hes : Chained Trails prev es) :
    Reach session known prev es rest p (Holds (.new session) (.refused (t ++ es) :: ps) n us) := by
  induction es generalizing p t prev with
  | nil =>
      rw [List.append_nil]
      exact .refl hp
  | cons c es ih =>
      rcases hes with ⟨hc, hes⟩
      -- Inside a number no word is opened, so no marker begins here.
      have hmarker : Lexeme.markerTail? prev (c :: (es ++ rest)) = none :=
        Lexeme.markerTail?_eq_none (.inr (.inl hprev))
      have hplain : p.builder.isHex = false := by
        rw [hp.builder]
        exact beq_eq_false_iff_ne.mpr hhex
      have hkind : ∃ kind, (kind = .digit ∨ kind = .point ∨ kind = .exponent) ∧
          Lexeme.recognise prev p.builder.isHex c (es ++ rest) = some (kind, 0) := by
        cases hc with
        | digit h => exact ⟨.digit, .inl rfl, Lexeme.recognise_digit (.inl h) hmarker⟩
        | point h => exact ⟨.point, .inr (.inl rfl), h ▸ Lexeme.recognise_point⟩
        | exponent h hmantissa =>
            rw [hplain, h]
            exact ⟨.exponent, .inr (.inr rfl), Lexeme.recognise_exponent hmantissa⟩
      have hopens : Lexeme.opensWord (some c) = false := by
        cases hc with
        | digit h => rw [Lexeme.opensWord, Text.isNameChar_of_isDigit h]; rfl
        | point h => rw [h]; decide
        | exponent h => rw [h]; decide
      rcases hkind with ⟨kind, hkind, hrec⟩
      have hone : Reach session known prev [c] (es ++ rest) p
          (Holds (.new session) (.refused (t ++ [c]) :: ps) n us) := by
        rcases hp with ⟨hb, hpieces, rfl, rfl⟩
        refine reach_of_moves (w := []) hrec (fun pos => ?_)
        refine ⟨_, _, .glued ⟨?_, hkind⟩, fun q hq hd => ⟨?_, ?_, ?_, ?_⟩⟩
        · rw [Draft.endsRefused, hpieces]
        · rw [hq, hb]
        · rw [hd, Draft.addRefused, hpieces]
        · rw [hd, Draft.addRefused, hpieces]
        · rw [hd, Draft.addRefused, hpieces]
      refine Reach.trans hone (fun q hq => ?_)
      have hmore := ih hq (List.getLast?_concat ..) hopens hes
      rw [List.append_assoc, List.singleton_append] at hmore
      exact hmore

/-- The digit that neither the base of a marker nor that of the session has. -/
theorem reach_refusedDigit {r : Radix} {ds : List Char} {e : Char} {ps : List Piece} {n : Nat}
    {us : List String} (hp : p.Holds ⟨session, r, some ds, true⟩ ps n us)
    (hrefused : ∀ t qs, ps ≠ .refused t :: qs) (hds : Chained (Fits r) none ds)
    (he : e.isDigit = true) (hr : r.accepts e = false) (hs : session.accepts e = false) :
    Reach session known prev [e] rest p
      (Holds (.new session) (.refused (r.marker ++ ds ++ [e]) :: ps) n us) := by
  have hclass := class_of_foreign he hr
  rcases hp with ⟨hb, rfl, rfl, rfl⟩
  have hfinish : p.builder.finish = (some ⟨r, true, ds⟩, .new session) := by
    rw [hb]
    rfl
  have hmarker : Lexeme.markerTail? prev (e :: ([] ++ rest)) = none :=
    Lexeme.markerTail?_eq_none (.inl hclass.1)
  refine reach_of_moves (w := []) (Lexeme.recognise_digit (.inl he) hmarker) (fun pos => ?_)
  have hstays : ¬p.Stays ⟨.digit, [e], pos⟩ := not_stays_of_pieces hrefused
  have hgoes : p.builder.canContinue ⟨.digit, [e], pos⟩ = false := by
    rw [Literal.Builder.canContinue_eq, takesSign_of_ne hclass.2.1 hclass.2.2, hb, Bool.or_false]
    exact hr
  have hnext : p.builder.finish.2.canContinue ⟨.digit, [e], pos⟩ = false := by
    rw [Literal.Builder.canContinue_eq, takesSign_of_ne hclass.2.1 hclass.2.2, hfinish,
      Bool.or_false]
    exact hs
  have hclosed : ∃ d, p.Closes ⟨.digit, [e], pos⟩ false d ∧
      (d.addRefused session ⟨.digit, [e], pos⟩).pieces =
        .refused (r.marker ++ ds ++ [e]) :: p.draft.pieces ∧
      (d.addRefused session ⟨.digit, [e], pos⟩).openings = p.draft.openings ∧
      (d.addRefused session ⟨.digit, [e], pos⟩).undefinedNames = p.draft.undefinedNames := by
    have hdigits : Literal.digits ⟨r, true, ds⟩ = ds := filter_of_chained hds
    -- A marker without digits is kept for the refused digit alone.
    rcases ds with _ | ⟨d, ds⟩
    · refine ⟨_, .bare ⟨r, true, []⟩ (by rw [hfinish]) rfl rfl rfl, ?_, rfl, rfl⟩
      rw [List.append_nil]
      rfl
    · refine ⟨_, .number ⟨r, true, d :: ds⟩ (by rw [hfinish]) ?_, ?_, rfl, rfl⟩
      · rw [hdigits]
        exact List.cons_ne_nil _ _
      · have hnormal : Literal.normal ⟨r, true, d :: ds⟩ = r.marker ++ d :: ds := by
          rw [Literal.normal, hdigits]
          rfl
        rw [hnormal]
        rfl
  rcases hclosed with ⟨d, hd, hpieces, hopenings, hnames⟩
  refine ⟨_, _, .added d _ hstays hgoes hnext hd rfl, fun q hq hd => ⟨?_, ?_, ?_, ?_⟩⟩
  · rw [hq, hfinish]
  · rw [hd, hpieces]
  · rw [hd, hopenings]
  · rw [hd, hnames]

/-- A number up to its first refused digit, and what stays with that digit. -/
theorem reach_refused {t : List Char} {ps : List Piece} {n : Nat} {us : List String}
    (hp : p.Holds (.new session) ps n us) (hrefused : ∀ t qs, ps ≠ .refused t :: qs)
    (ht : WellMade session (.refused t)) (hprev : Lexeme.opensWord prev = true) :
    Reach session known prev t rest p (Holds (.new session) (.refused t :: ps) n us) := by
  cases ht with
  | @refused r ds es e hds he hr hs hes =>
      have hsession := Radix.refuses_isDigit he hs
      have hletter := Radix.not_markerLetter_of_isDigit he
      have hhead : ∀ d ∈ (e :: es ++ rest).head?, d ∉ ['b', 'o', 'd', 'x'] := by
        intro d hd
        rw [List.cons_append, List.head?_cons, Option.mem_some_iff] at hd
        rwa [← hd]
      have htext : r.marker ++ (ds ++ e :: es) = (r.marker ++ ds) ++ (e :: es) := by
        rw [List.append_assoc]
      rw [htext]
      -- First the marker and the digits before, then the refused digit, then what trails.
      refine (reach_marked hp rfl (Literal.Builder.digits_of_new session) hrefused hprev hds
        hhead).trans (fun q hq => ?_)
      have hone : Reach session known ((r.marker ++ ds).getLast?.or prev) [e] (es ++ rest) q
          (Holds (.new session) (.refused (r.marker ++ ds ++ [e]) :: ps) n us) :=
        reach_refusedDigit hq hrefused hds he hr hs
      refine Reach.trans hone (fun q hq => ?_)
      have hmore : Reach session known (some e) es rest q
          (Holds (.new session) (.refused (r.marker ++ ds ++ [e] ++ es) :: ps) n us) :=
        reach_trailing hq hsession.2 (List.getLast?_concat ..) ?_ hes
      · rw [List.append_assoc, List.singleton_append] at hmore
        exact hmore
      · rw [Lexeme.opensWord, Text.isNameChar_of_isDigit he]
        rfl

/-- A text is prepared if reading it leads to where an operand ends and no bracket is
    open. -/
theorem draftOf_of_reach {b : Literal.Builder} {ps : List Piece} {us : List String}
    (h : Reach session known none text [] (start session) (Holds b ps 0 us))
    (hdigits : ∀ literal, b.finish.1 = some literal → literal.digits ≠ [])
    (hends : ends (b.shown ps) = true) :
    ∃ d, draftOf session known text = .ok d ∧ d.pieces = b.shown ps ∧ d.undefinedNames = us := by
  rcases h 0 with ⟨q, hwalk, rfl, rfl, hdepth, rfl⟩
  rw [List.append_nil, walk_nil] at hwalk
  rcases finish_of_complete text.length hdigits (List.eq_nil_of_length_eq_zero hdepth)
    (Piece.complete_of_ends hends).2 with ⟨d, hfinish, hpieces, hnames⟩
  refine ⟨d, ?_, hpieces, hnames⟩
  rw [draftOf_eq_walk, hwalk]
  exact hfinish

end

end Preparation

end ExactCalc
