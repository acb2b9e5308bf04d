import ExactCalc.Proofs.Answer
import ExactCalc.Proofs.Calculation.Failed
import ExactCalc.Proofs.Prepared.Again

/-!
# Zones of Failures

Where in its expression a failed calculation says the fault is.

A failure of the engine may come with a zone of one character, which is meant to be
marked in the expression the failure is published with. The engine looks at that
expression without the blanks around it, and it counts one place more than there are
characters where the digits of a marker are missing at the very end. Neither makes a
zone reach beyond the expression, because of how an expression ends: its last piece
is an operand, and the last character of that is one of a number or of a name, or a
closing bracket. It is no blank, and no marker stands there without its digits.

One expression has no characters at all, and therefore no room for a zone. It is
what a text of nothing but separators is prepared as, and the engine blames it at
its first place all the same.

## Main definitions

* `Piece.Finishes`: The characters that an expression can end with.
* `Failure.Pointed`: A failure whose zone lies in its expression.

## Theorems

* `finishes_of_draftOf`: The last character of an expression.
* `pointed_of_attempt`: Where an attempt at a prepared expression finds a fault.
* `failures_pointed`: The zones of a whole course.
-/

namespace ExactCalc

open Literal (Fits Trails Chained)

/-- The zone of a failure is a stretch of its expression, or the first place of an
    expression that has none. -/
def Failure.Pointed (f : Failure) : Prop :=
  ∀ span, f.span = some span → span.start < span.stop ∧
    (span.stop ≤ f.expression.length ∨ (f.expression = "" ∧ span = ⟨0, 1⟩))

namespace Piece

/-- A character that an expression can end with. -/
def Finishes (c : Char) : Prop := isNameChar c = true ∨ c ∈ ['.', '+', '-', ')']

section Finishing

variable {session r : Radix} {prev : Option Char} {c : Char} {q : Piece}

theorem Finishes.solid (h : Finishes c) : Text.isBlank c = false ∧ c ≠ ':' := by
  rcases h with h | h
  · refine ⟨Text.isBlank_of_isNameChar h, fun hcolon => ?_⟩
    rw [hcolon] at h
    exact absurd h (by decide)
  · have hall : ∀ c ∈ ['.', '+', '-', ')'], Text.isBlank c = false ∧ c ≠ ':' :=
      Text.forall_of_all (by decide)
    exact hall c h

theorem finishes_of_fits (h : Fits r prev c) : Finishes c := by
  have haccepted : ∀ c ∈ r.alphabet, isNameChar c = true := by
    cases r <;> exact Text.forall_of_all (by decide)
  rcases h with h | rfl | ⟨-, rfl, -⟩ | ⟨-, rfl | rfl, -⟩
  · exact .inl (haccepted c (List.contains_iff_mem.mp h))
  · exact .inr (by decide)
  · exact .inl (by decide)
  · exact .inr (by decide)
  · exact .inr (by decide)

theorem finishes_of_trails (h : Trails prev c) : Finishes c := by
  rcases h with h | rfl | ⟨rfl, -⟩
  · exact .inl (Text.isNameChar_of_isDigit h)
  · exact .inr (by decide)
  · exact .inl (by decide)

/-- The last character of a text fits the one before it, and that says what it is. -/
theorem finishes_of_chained {fits : Option Char → Char → Prop} {cs : List Char}
    (hfits : ∀ prev c, fits prev c → Finishes c) (h : Chained fits prev cs)
    (hlast : cs.getLast? = some c) : Finishes c := by
  rcases List.getLast?_eq_some_iff.mp hlast with ⟨init, rfl⟩
  exact hfits _ c (Literal.chained_append_singleton.mp h).2

/-- An operand that is well made ends with such a character. -/
theorem WellMade.finishes (h : WellMade session q) (hq : q.endsOperand = true)
    (hlast : q.text.getLast? = some c) : Finishes c := by
  cases h with
  | @number r t ds ht hne hds =>
      have hdigits : ds.getLast? = some c := by
        cases ht with
        | marked => rwa [text, List.getLast?_append_of_ne_nil _ hne] at hlast
        | plain => exact hlast
      exact finishes_of_chained (fun _ _ => finishes_of_fits) hds hdigits
  | @refused r ds es e hds he hr hs hes =>
      rw [text, List.getLast?_append_of_ne_nil _ (List.append_ne_nil_of_right_ne_nil _
        (List.cons_ne_nil _ _)), List.getLast?_append_of_ne_nil _ (List.cons_ne_nil _ _)] at hlast
      have htrailing : Chained Trails none (e :: es) := ⟨.digit he, hes⟩
      exact finishes_of_chained (fun _ _ => finishes_of_trails) htrailing hlast
  | @constant d ds hd hds hname =>
      have hall : ∀ e ∈ d :: ds, isNameChar e = true :=
        List.forall_mem_cons.mpr ⟨Text.isNameChar_of_isNameStart hd, hds⟩
      exact .inl (hall c (List.mem_of_getLast? hlast))
  | root | called => exact absurd hq Bool.false_ne_true

/-- The last character of a prepared expression. -/
theorem finishes_of_draftOf {known : String → Bool} {cs : List Char} {d : Draft}
    (h : Preparation.draftOf session known cs = .ok d)
    (hlast : (write d.pieces.reverse).getLast? = some c) : Finishes c := by
  rcases Preparation.row_of_draftOf h with ⟨hrow, hincomplete, -⟩
  unfold Draft.isIncomplete at hincomplete
  -- The last piece is that of a row without open brackets, and it ends an operand.
  generalize hn : 0 = n at hrow
  generalize d.pieces = ps at hrow hincomplete hlast
  cases hrow with
  | nil => cases hlast
  | @made ps n q hrow hq =>
      rw [getLast?_write hq.text_ne_nil] at hlast
      refine hq.finishes ?_ hlast
      cases hq with
      | number | refused | constant => rfl
      | root | called => exact absurd hincomplete Bool.true_eq_false.mp
  | sign => exact absurd hincomplete Bool.true_eq_false.mp
  | opening => exact absurd hn (Nat.succ_ne_zero _).symm
  | closing =>
      rw [getLast?_write (show closing.text ≠ [] from List.cons_ne_nil _ _)] at hlast
      rw [← Option.some.inj hlast]
      exact .inr (by decide)

end Finishing

end Piece

namespace Exact

section Places

variable {settings : Settings} {registry known : Registry} {session : Radix}
  {typed : String} {p : Prepared} {op : Operation} {cancelled : Bool} {kept : List Message}

/-- The tokenizer tells of no place behind an expression, and where nothing is left of
    an expression without the blanks around it, it had no characters before. -/
theorem limit_of_prepared (h : Prepared.ofText known session typed = .ok p) :
    Token.limit 0 (Text.trim p.expression.toList) ≤ p.expression.length ∧
      (Text.trim p.expression.toList = [] → p.expression = "") := by
  rw [Prepared.ofText] at h
  rcases hdraft : Preparation.draftOf session known.contains typed.toList with e | d
  · rw [hdraft] at h
    cases h
  rw [hdraft] at h
  have hwritten : p.expression.toList = Piece.write d.pieces.reverse := by
    rw [← Except.ok.inj h, Prepared.ofDraft, String.toList_ofList]
  rw [← String.length_toList]
  rcases hcs : p.expression.toList.eq_nil_or_concat with hnil | ⟨init, c, hconcat⟩
  · rw [hnil]
    exact ⟨Nat.le_refl 0, fun _ => String.toList_eq_nil_iff.mp hnil⟩
  · have hlast : (Piece.write d.pieces.reverse).getLast? = some c := by
      rw [← hwritten, hconcat, List.concat_eq_append, List.getLast?_concat]
    rcases (Piece.finishes_of_draftOf hdraft hlast).solid with ⟨hblank, hcolon⟩
    have hstart : (Text.trimStart init).length ≤ init.length :=
      (List.dropWhile_sublist _).length_le
    rw [hconcat, List.concat_eq_append, Text.trim_concat init hblank]
    refine ⟨?_, fun hnil => absurd hnil (List.append_ne_nil_of_right_ne_nil _
      (List.cons_ne_nil _ _))⟩
    rw [Token.limit, List.getLast?_concat, if_neg (fun h => hcolon (Option.some.inj h)),
      List.length_append, List.length_append]
    omega

/-- An attempt at a prepared expression that fails is told of with a zone in that
    expression, if with any. -/
theorem pointed_of_attempt (hp : Prepared.ofText known session typed = .ok p) {e : EvalError}
    (h : ((engine settings registry).attempt p.expression op cancelled kept).reply =
      .failure e) : (Failure.ofEngine op p.expression e).Pointed := by
  intro span hspan
  rcases limit_of_prepared hp with ⟨hlimit, hempty⟩
  have hplace : e.position?.map (fun q => (⟨q, q + 1⟩ : Span)) = some span := by
    rw [← hspan]
    cases e <;> rfl
  rcases Option.map_eq_some_iff.mp hplace with ⟨q, hq, rfl⟩
  refine ⟨Nat.lt_succ_self q, ?_⟩
  rcases stop_of_attempt h with ⟨x, herr, -⟩ | ⟨herr, htrim⟩ | hbefore
  · rw [herr] at hq
    cases hq
  · rw [herr, EvalError.position?, Option.some.injEq] at hq
    exact .inr ⟨hempty htrim, by rw [← hq]⟩
  · exact .inl (Nat.lt_of_lt_of_le (hbefore.place q hq) hlimit)

end Places

end Exact

namespace Calculation

/-- A calculation with exact engines that fails has been given a text that could not be
    prepared, or is told of with an error that an attempt has ended in, or its engine
    has broken down. In the last two cases the zone of the failure, if it has one, is a
    stretch of the expression it is published with: it is not empty and does not go beyond
    the last character. Only an expression without any character is blamed at a place that
    it does not have, the first one. -/
theorem failures_pointed (r : Request) (moments : List (Moment (List Message)))
    (hengines : ∀ m ∈ moments, ∃ settings registry, m.engine = Exact.engine settings registry)
    (f : Failure) (hf : .calculationFailed f ∈ (course r (start r) moments).events) :
    Refused r moments f ∨ ((Blamed r moments f ∨ Broken r moments f) ∧ f.Pointed) := by
  rcases fails_of_course hf with ⟨phase, m, htakes, hfails⟩
  rcases hengines m htakes.mem with ⟨settings, registry, hengine⟩
  cases hfails with
  | @refused op e h => exact .inl ⟨op, m, e, htakes, h, rfl⟩
  | @blamed op p e h =>
      refine .inr ⟨.inl ⟨op, p, m, e, htakes, h, rfl⟩, ?_⟩
      -- What is evaluated was prepared at one of the moments before.
      rcases htakes with ⟨past, rest, -, hphase⟩
      have htold := told_course r past
      rw [Course.Told, hphase] at htold
      rcases htold.2 with ⟨m', -, hprepared⟩
      rw [hengine] at h
      exact Exact.pointed_of_attempt hprepared h
  | @brokeDown op p h =>
      -- A breakdown is told of without a place.
      exact .inr ⟨.inr ⟨op, p, m, htakes, h, rfl⟩, fun _ hspan => nomatch hspan⟩

/-- The second point in `1..2` is at fault. -/
theorem failures_pointed_secondPoint :
    let r : Request := ⟨1, .numeric, "1..2"⟩
    let moments := Session.unvarying .standard
    let f : Failure := ⟨.numeric, "1..2", .reading, "deux points dans un nombre", some ⟨2, 3⟩⟩
    .calculationFailed f ∈ (course r (start r) moments).events ∧
      (Refused r moments f ∨ ((Blamed r moments f ∨ Broken r moments f) ∧ f.Pointed)) := by
  intro r moments f
  have hf : .calculationFailed f ∈ (course r (start r) moments).events := by decide +kernel
  refine ⟨hf, failures_pointed r moments (fun m hm => ?_) f hf⟩
  rw [List.eq_of_mem_replicate hm]
  exact ⟨{}, .standard, rfl⟩

/-- A text of separators is prepared as an expression without characters, and the zone it
    is blamed with ends beyond that. -/
theorem emptyExpression_beyond :
    let r : Request := ⟨1, .numeric, "'"⟩
    let moments := Session.unvarying .standard
    let f : Failure := ⟨.numeric, "", .reading, "expression vide", some ⟨0, 1⟩⟩
    (course r (start r) moments).events = [.calculationFailed f] ∧ Blamed r moments f ∧
      f = .ofEngine .numeric "" (.unreadable .emptyText (some 0)) ∧
      ¬(1 ≤ f.expression.length) := by
  intro r moments f
  have htakes : Takes r moments (.evaluating .numeric ⟨"", []⟩)
      ⟨Exact.engine {} .standard, [], .standard, .dec, false⟩ :=
    ⟨moments.take 1, moments.drop 2, rfl, by decide +kernel⟩
  have hreply : ((Exact.engine {} .standard).attempt "" .numeric false []).reply =
      .failure (.unreadable .emptyText (some 0)) := by
    rw [Exact.reply_attempt_bind]
    rfl
  exact ⟨by decide +kernel, ⟨.numeric, ⟨"", []⟩, _, _, htakes, hreply, rfl⟩, rfl, by decide⟩

end Calculation

end ExactCalc
