import ExactCalc.Proofs.Lexeme.Place
import ExactCalc.Proofs.Literal
import ExactCalc.Proofs.Prepared.Step

/-!
# Where a Text Is at Fault

What the errors of a preparation point at.

A walk over a text is the lexemes it has met, one at each place where the last one
ended. It gets no further than the text, since no lexeme is empty or reaches beyond the
text, and it ends where the text does, where no lexeme starts, or at a lexeme that is
refused. `Walked` and `Ends` say so without reference to how the walk is carried out,
and the outcome of a preparation is what such a walk ends with.

An error is made of what the walk has kept at that moment: where the open literal has
begun, where the last piece comes from, and which brackets are open. Each of these lies
behind the walk. The stretches are not empty, because a literal and a piece both have a
lexeme at least, and the open brackets are those that the text leaves open so far. The
brackets of a text are never part of anything else, neither of a literal nor of another
lexeme, and that is why the count of them is right.

## Main definitions

* `Preparation.Walked`, `Preparation.Ends`: How far a walk has come, and how it ends.
* `Preparation.Behind`: What the errors of a walk point at, behind it.
* `Preparation.Faults`, `Preparation.Lacks`: What can be wrong with a lexeme, and at the
  end.
* `PreparationError.Points`: What an error says of its place.

## Theorems

* `exists_ends`: The outcome of a preparation is the end of a walk.
* `behind_of_walked`: What holds wherever a walk stands.
* `faults_of_step`, `lacks_of_finish`: What errors are made of.
* `ofText_points`: What the errors of a preparation point at.
-/

namespace ExactCalc

open Brackets (opens closes Balanced Leaves Unopened Unclosed)

/-- A stretch that is not empty and ends within a text of the given length. -/
def Span.Within (s : Span) (length : Nat) : Prop :=
  s.start < s.stop ∧ s.stop ≤ length

theorem Span.Within.mono {s : Span} {m n : Nat} (h : s.Within m) (hmn : m ≤ n) : s.Within n :=
  ⟨h.1, Nat.le_trans h.2 hmn⟩

theorem Literal.Builder.isOpen_of_finish {b : Literal.Builder} {literal : Literal}
    (h : b.finish.1 = some literal) : b.isOpen = true := by
  unfold Literal.Builder.finish at h
  rcases hcurrent : b.current with _ | body
  · rw [hcurrent] at h
    cases h
  · rw [isOpen, hcurrent, Option.isSome_some]

namespace Preparation

variable {session : Radix} {known : String → Bool} {text : List Char} {p p' : Preparation}
  {l : Lexeme} {starts : List Nat} {pos : Nat}

/-- A walk that has come to a place, with the places where its lexemes start, the last
    one first. -/
inductive Walked (session : Radix) (known : String → Bool) (text : List Char) :
    List Nat → Nat → Preparation → Prop where
  | start : Walked session known text [] 0 (start session)
  | next {starts : List Nat} {pos : Nat} {p p' : Preparation} {l : Lexeme}
      (h : Walked session known text starts pos p)
      (hl : Lexeme.at? text pos p.builder.isHex = some l)
      (hstep : step session known p l = .ok p') :
      Walked session known text (pos :: starts) l.stop p'

/-- How a walk ends that has come to a place: at the end of the text, where no lexeme
    starts, or at a lexeme that is refused. -/
inductive Ends (session : Radix) (known : String → Bool) (text : List Char) (pos : Nat)
    (p : Preparation) : Except PreparationError Draft → Prop where
  | finished (h : pos = text.length) : Ends session known text pos p (p.finish text.length)
  | unread {c : Char} (hc : text[pos]? = some c)
      (hl : Lexeme.at? text pos p.builder.isHex = none) :
      Ends session known text pos p (.error ⟨.unexpectedCharacter c, ⟨pos, pos + 1⟩⟩)
  | refused {l : Lexeme} {e : PreparationError}
      (hl : Lexeme.at? text pos p.builder.isHex = some l)
      (hstep : step session known p l = .error e) : Ends session known text pos p (.error e)

/-- A walk goes on until it ends. -/
theorem ends_of_walk (before cs : List Char)
    (h : Walked session known (before ++ cs) starts before.length p) :
    ∃ starts pos p', Walked session known (before ++ cs) starts pos p' ∧
      Ends session known (before ++ cs) pos p'
        (match walk session known before.getLast? before.length cs p with
          | .error e => .error e
          | .ok q => q.finish (before ++ cs).length) := by
  -- The induction is on the text left over; every lexeme takes a character at least.
  generalize hlen : cs.length = len
  induction len using Nat.strongRecOn generalizing before cs starts p with
  | ind len ih =>
      cases cs with
      | nil =>
          refine ⟨starts, before.length, p, h, ?_⟩
          rw [walk_nil]
          exact .finished (by rw [List.append_nil])
      | cons c cs =>
          have hat := Lexeme.at?_append before c cs p.builder.isHex
          rcases hrec : Lexeme.recognise before.getLast? p.builder.isHex c cs with _ | ⟨kind, m⟩
          · refine ⟨starts, before.length, p, h, ?_⟩
            rw [hrec] at hat
            rw [walk, Lexeme.scan, hrec]
            refine .unread ?_ hat
            rw [List.getElem?_append_right (Nat.le_refl _), Nat.sub_self]
            rfl
          · rw [hrec] at hat
            rcases hstep : step session known p ⟨kind, c :: cs.take m, before.length⟩ with e | p'
            · refine ⟨starts, before.length, p, h, ?_⟩
              rw [walk, Lexeme.scan, hrec]
              simp only [hstep]
              exact .refused hat hstep
            · have hsplit : before ++ c :: cs = (before ++ c :: cs.take m) ++ cs.drop m := by
                rw [List.append_assoc, List.cons_append, List.take_append_drop]
              have hplace : (before ++ c :: cs.take m).length =
                  before.length + (c :: cs.take m).length := List.length_append
              have hnext : Walked session known (before ++ c :: cs)
                  (before.length :: starts) (before ++ c :: cs.take m).length p' := by
                rw [hplace]
                exact h.next hat hstep
              have hprev : (before ++ c :: cs.take m).getLast? = (c :: cs.take m).getLast? :=
                List.getLast?_append_of_ne_nil _ (List.cons_ne_nil _ _)
              rw [walk_cons hrec _ hstep, ← hprev, ← hplace]
              rw [hsplit] at hnext ⊢
              refine ih (cs.drop m).length ?_ _ _ hnext rfl
              rw [← hlen, List.length_cons, List.length_drop]
              omega

/-- The outcome of a preparation is the end of a walk. -/
theorem exists_ends (session : Radix) (known : String → Bool) (text : List Char) :
    ∃ starts pos p, Walked session known text starts pos p ∧
      Ends session known text pos p (draftOf session known text) :=
  ends_of_walk [] text .start

/-! ## What a walk keeps -/

/-- The last piece of a draft comes from a stretch of text behind the walk. -/
def Placed (d : Draft) (pos : Nat) : Prop :=
  d.pieces ≠ [] → d.zone.Within pos

/-- What the errors of a walk point at lies behind it. -/
structure Behind (text : List Char) (pos : Nat) (p : Preparation) : Prop where
  pos_le : pos ≤ text.length
  literal : p.builder.isOpen = true → p.literalStart < pos
  zone : Placed p.draft pos
  openings : Leaves (text.take pos) p.draft.openings

/-- Brackets go on with no literal. -/
theorem not_bracket_of_canContinue {b : Literal.Builder} (hl : l.Occurs text)
    (h : b.canContinue l = true) : l.kind ≠ .opening ∧ l.kind ≠ .closing := by
  rw [Literal.Builder.canContinue_eq, Bool.or_eq_true] at h
  rcases h with h | h
  · constructor <;>
      · intro hkind
        rw [Literal.Builder.goesOn, hkind] at h
        exact Bool.false_ne_true h
  · rcases Literal.Builder.takesSign_eq_true.mp h with ⟨-, htext, -⟩
    constructor <;> intro hkind
    · rcases hl.opening hkind with ⟨c, hc, hopens⟩
      rw [hc, List.cons.injEq, List.cons.injEq] at htext
      rcases htext with ⟨rfl, -⟩ | ⟨rfl, -⟩ <;> exact absurd hopens (by decide)
    · rcases hl.closing hkind with ⟨c, hc, hcloses⟩
      rw [hc, List.cons.injEq, List.cons.injEq] at htext
      rcases htext with ⟨rfl, -⟩ | ⟨rfl, -⟩ <;> exact absurd hcloses (by decide)

/-- A lexeme that is no bracket leaves open what is open. -/
theorem leaves_of_plain {places : List Nat} (hl : l.Occurs text)
    (h : Leaves (text.take l.start) places) (hopening : l.kind ≠ .opening)
    (hclosing : l.kind ≠ .closing) : Leaves (text.take l.stop) places := by
  rw [hl.take_stop]
  exact h.append_balanced (Brackets.balanced_of_plain (hl.plain hopening hclosing))

theorem openings_of_closes {opened : Bool} {d : Draft} (h : p.Closes l opened d) :
    d.openings = p.draft.openings := by
  cases h <;> rfl

@[simp] theorem openings_addRefused (d : Draft) (session : Radix) (l : Lexeme) :
    (d.addRefused session l).openings = d.openings := by
  unfold Draft.addRefused
  split <;> rfl

theorem leaves_of_addLexeme {d d' : Draft} (hl : l.Occurs text)
    (h : Leaves (text.take l.start) d.openings) (hadd : d.addLexeme session known l = .ok d') :
    Leaves (text.take l.stop) d'.openings := by
  by_cases hopening : l.kind = .opening
  · rcases hl.opening hopening with ⟨c, hc, hopens⟩
    have hlen : (text.take l.start).length = l.start :=
      List.length_take_of_le (Nat.le_trans (Nat.le_of_lt hl.start_lt_stop) hl.stop_le)
    have hnext := h.append_opening hopens
    rw [hlen, ← hc, ← hl.take_stop] at hnext
    simp only [Draft.addLexeme, hopening, Except.ok.injEq] at hadd
    rw [← hadd]
    exact hnext
  by_cases hclosing : l.kind = .closing
  · rcases hl.closing hclosing with ⟨c, hc, hcloses⟩
    simp only [Draft.addLexeme, hclosing] at hadd
    -- Closing takes the bracket that was opened last.
    rcases Draft.close_eq_ok.mp hadd with ⟨place, outer, hopenings, -, -, rfl⟩
    rw [hopenings] at h
    rw [hl.take_stop, hc]
    exact h.append_closing hcloses
  · -- Nothing else changes what is open.
    have hsame : d'.openings = d.openings := by
      unfold Draft.addLexeme at hadd
      split at hadd
      · rw [← Except.ok.inj hadd]
      iterate 4
        · rw [← Except.ok.inj hadd, openings_addRefused]
      · split at hadd
        · cases hadd
        · rw [← Except.ok.inj hadd]
          rfl
      · exact absurd ‹_› hopening
      · exact absurd ‹_› hclosing
      · rw [← Except.ok.inj hadd]
        rfl
      · rw [← Except.ok.inj hadd]
        rfl
    rw [hsame]
    exact leaves_of_plain hl h hopening hclosing

/-- The open brackets of a draft are those that the text leaves open. -/
theorem leaves_of_moves {b : Literal.Builder} {d : Draft} (hl : l.Occurs text)
    (h : Leaves (text.take l.start) p.draft.openings) (hmoves : Moves session known p l b d) :
    Leaves (text.take l.stop) d.openings := by
  cases hmoves with
  | glued hstays =>
      rw [openings_addRefused]
      refine leaves_of_plain hl h ?_ ?_ <;>
        · intro hkind
          rcases hstays.2 with hk | hk | hk <;> exact absurd (hkind.symm.trans hk) (by decide)
  | taken _ hgoes =>
      have hbracket := not_bracket_of_canContinue hl hgoes
      exact leaves_of_plain hl h hbracket.1 hbracket.2
  | opened d _ _ hnext hd =>
      have hbracket := not_bracket_of_canContinue hl hnext
      rw [openings_of_closes hd]
      exact leaves_of_plain hl h hbracket.1 hbracket.2
  | added d d' _ _ _ hd hadd =>
      rw [← openings_of_closes hd] at h
      exact leaves_of_addLexeme hl h hadd

theorem placed_addRefused (d : Draft) (session : Radix) (hl : l.start < l.stop) :
    Placed (d.addRefused session l) l.stop := by
  have hzone : (d.addRefused session l).zone = l.span := by
    unfold Draft.addRefused
    split <;> rfl
  intro _
  rw [hzone]
  exact ⟨hl, Nat.le_refl _⟩

theorem placed_of_closes {opened : Bool} {d : Draft} (h : p.Closes l opened d)
    (hd : Placed p.draft l.start) (hliteral : p.builder.isOpen = true → p.literalStart < l.start) :
    Placed d l.start := by
  cases h with
  | nothing h => exact hd
  | number literal h | bare literal h =>
      exact fun _ => ⟨hliteral (Literal.Builder.isOpen_of_finish h), Nat.le_refl _⟩

theorem placed_of_addLexeme {d d' : Draft} (hl : l.start < l.stop) (hd : Placed d l.start)
    (hadd : d.addLexeme session known l = .ok d') : Placed d' l.stop := by
  have hspan : l.span.Within l.stop := ⟨hl, Nat.le_refl _⟩
  unfold Draft.addLexeme at hadd
  split at hadd
  · rw [← Except.ok.inj hadd]
    exact fun hpieces => (hd hpieces).mono (Nat.le_of_lt hl)
  iterate 4
    · rw [← Except.ok.inj hadd]
      exact placed_addRefused d session hl
  · split at hadd
    · cases hadd
    · rw [← Except.ok.inj hadd]
      exact fun _ => hspan
  · rw [← Except.ok.inj hadd]
    exact fun _ => hspan
  · rcases Draft.close_eq_ok.mp hadd with ⟨place, outer, -, -, -, rfl⟩
    exact fun _ => hspan
  · rw [← Except.ok.inj hadd]
    exact fun _ => hspan
  · rw [← Except.ok.inj hadd]
    exact fun _ => hspan

/-- The last piece lies behind the walk again after every move. -/
theorem placed_of_moves {b : Literal.Builder} {d : Draft} (hl : l.start < l.stop)
    (hd : Placed p.draft l.start) (hliteral : p.builder.isOpen = true → p.literalStart < l.start)
    (hmoves : Moves session known p l b d) : Placed d l.stop := by
  cases hmoves with
  | glued _ => exact placed_addRefused p.draft session hl
  | taken _ _ => exact fun hpieces => (hd hpieces).mono (Nat.le_of_lt hl)
  | opened d _ _ _ hclosed =>
      exact fun hpieces => (placed_of_closes hclosed hd hliteral hpieces).mono (Nat.le_of_lt hl)
  | added d d' _ _ _ hclosed hadd =>
      exact placed_of_addLexeme hl (placed_of_closes hclosed hd hliteral) hadd

/-- An open literal starts with the lexeme, or it has been open before. -/
theorem literalStart_of_step (h : step session known p l = .ok p')
    (hopen : p'.builder.isOpen = true) :
    p'.literalStart = l.start ∨ p'.literalStart = p.literalStart ∧ p.builder.isOpen = true := by
  by_cases hstays : p.Stays l
  · rw [step_of_stays session known hstays] at h
    rw [← Except.ok.inj h] at hopen ⊢
    exact .inr ⟨rfl, hopen⟩
  by_cases hgoes : p.builder.canContinue l = true
  · rw [step_of_continues session known hstays hgoes] at h
    rw [← Except.ok.inj h]
    cases hbefore : p.builder.isOpen with
    | false => exact .inl rfl
    | true => exact .inr ⟨rfl, rfl⟩
  rw [Bool.not_eq_true] at hgoes
  by_cases hnext : p.builder.finish.2.canContinue l = true
  · rw [step_of_opens session known hstays hgoes hnext] at h
    rcases map_eq_ok.mp h with ⟨d, -, rfl⟩
    exact .inl rfl
  · -- The lexeme stands for itself, and no literal is open behind it.
    rw [Bool.not_eq_true] at hnext
    rw [step_of_adds session known hstays hgoes hnext] at h
    rcases bind_eq_ok.mp h with ⟨d, -, h⟩
    rcases map_eq_ok.mp h with ⟨d', -, rfl⟩
    rw [Literal.Builder.isOpen, Literal.Builder.current_finish] at hopen
    exact absurd hopen Bool.false_ne_true

/-- A lexeme that is taken in lies behind the walk, too. -/
theorem behind_of_step (hl : l.Occurs text) (h : Behind text l.start p)
    (hstep : step session known p l = .ok p') : Behind text l.stop p' := by
  have hmoves := moves_of_step hstep
  -- An open literal has its first character in front of the place by now.
  refine ⟨hl.stop_le, fun hopen => ?_,
    placed_of_moves hl.start_lt_stop h.zone h.literal hmoves, leaves_of_moves hl h.openings hmoves⟩
  rcases literalStart_of_step hstep hopen with hstart | ⟨hstart, hbefore⟩
  · rw [hstart]
    exact hl.start_lt_stop
  · rw [hstart]
    exact Nat.lt_trans (h.literal hbefore) hl.start_lt_stop

/-- What holds wherever a walk stands. -/
theorem behind_of_walked (h : Walked session known text starts pos p) : Behind text pos p := by
  induction h with
  | start =>
      exact ⟨Nat.zero_le _, fun hopen => absurd hopen Bool.false_ne_true,
        fun hpieces => absurd rfl hpieces, .balanced .nil⟩
  | next _ hl hstep ih =>
      rcases Lexeme.occurs_of_at? hl with ⟨rfl, hoccurs, -⟩
      exact behind_of_step hoccurs ih hstep

/-- The lexemes of a walk start at different places behind it, and none of them begins
    with a foreign character. -/
theorem starts_of_walked (h : Walked session known text starts pos p) :
    starts.length ≤ pos ∧ ∀ i ∈ starts, i < pos ∧ ∃ c, text[i]? = some c ∧ ¬Lexeme.Foreign c := by
  induction h with
  | start => exact ⟨Nat.le_refl 0, fun i hi => absurd hi List.not_mem_nil⟩
  | next _ hl _ ih =>
      rcases Lexeme.occurs_of_at? hl with ⟨rfl, hoccurs, hc⟩
      have hlt := hoccurs.start_lt_stop
      refine ⟨Nat.lt_of_le_of_lt ih.1 hlt, fun i hi => ?_⟩
      rcases List.mem_cons.mp hi with rfl | hi
      · exact ⟨hlt, hc⟩
      · exact ⟨Nat.lt_trans (ih.2 i hi).1 hlt, (ih.2 i hi).2⟩

/-! ## What errors are made of -/

/-- What can be wrong with a lexeme. -/
inductive Faults (p : Preparation) (l : Lexeme) : PreparationError → Prop where
  | bare (hopen : p.builder.isOpen = true) :
      Faults p l ⟨.markerWithoutDigits, ⟨p.literalStart, l.start⟩⟩
  | misplaced (sign : List Char) : Faults p l ⟨.misplacedOperator sign, l.span⟩
  | unmatched (hkind : l.kind = .closing) (h : p.draft.openings = []) :
      Faults p l ⟨.unmatchedClosing, l.span⟩
  | empty : Faults p l ⟨.emptyGroup, l.span⟩
  | incomplete : Faults p l ⟨.incomplete, l.span⟩

/-- What can be wrong at the end of a text. -/
inductive Lacks (p : Preparation) (length : Nat) : PreparationError → Prop where
  | bare (hopen : p.builder.isOpen = true) :
      Lacks p length ⟨.markerWithoutDigits, ⟨p.literalStart, length⟩⟩
  | incomplete (h : p.draft.pieces ≠ []) : Lacks p length ⟨.incomplete, p.draft.zone⟩
  | unclosed (place : Nat) (outer : List Nat) (h : p.draft.openings = place :: outer) :
      Lacks p length ⟨.unclosedGroup, ⟨place, place + 1⟩⟩

theorem addLiteral_eq_error {d : Draft} {literal : Literal} {zone : Span} {e : PreparationError}
    (h : d.addLiteral literal zone = .error e) : e = ⟨.markerWithoutDigits, zone⟩ := by
  unfold Draft.addLiteral at h
  split at h
  · exact (Except.error.inj h).symm
  · cases h

theorem addClosed_eq_error {o : Literal.Builder.Outcome} {e : PreparationError}
    (h : p.addClosed l o = .error e) :
    o.closed.isSome = true ∧ e = ⟨.markerWithoutDigits, ⟨p.literalStart, l.start⟩⟩ := by
  unfold addClosed at h
  split at h
  · cases h
  · rename_i literal hclosed
    simp only [] at h
    split at h
    · cases h
    · exact ⟨by rw [hclosed]; rfl, addLiteral_eq_error h⟩

theorem faults_of_addLexeme {d : Draft} {e : PreparationError}
    (hd : d.openings = p.draft.openings) (h : d.addLexeme session known l = .error e) :
    p.Faults l e := by
  unfold Draft.addLexeme at h
  -- Nothing but signs and closing brackets is ever refused.
  split at h
  case h_6 =>
    split at h
    · rw [← Except.error.inj h]
      exact .misplaced _
    · cases h
  case h_8 hkind =>
    unfold Draft.close at h
    split at h
    · rename_i hnone
      rw [← Except.error.inj h]
      exact .unmatched hkind (hd ▸ hnone)
    · split at h
      · rw [← Except.error.inj h]
        exact .empty
      split at h
      · rw [← Except.error.inj h]
        exact .incomplete
      · cases h
  all_goals cases h

/-- What the errors at a lexeme are made of. -/
theorem faults_of_step {e : PreparationError} (h : step session known p l = .error e) :
    p.Faults l e := by
  -- A literal that is closed without digits is one that has been open.
  have hbare : ∀ {absorbed : Bool},
      p.addClosed l ⟨p.builder.finish.1, absorbed⟩ = .error e → p.Faults l e := by
    intro absorbed hclosed
    rcases addClosed_eq_error hclosed with ⟨hsome, rfl⟩
    rcases Option.isSome_iff_exists.mp hsome with ⟨literal, hliteral⟩
    exact .bare (Literal.Builder.isOpen_of_finish hliteral)
  by_cases hstays : p.Stays l
  · rw [step_of_stays session known hstays] at h
    cases h
  by_cases hgoes : p.builder.canContinue l = true
  · rw [step_of_continues session known hstays hgoes] at h
    cases h
  rw [Bool.not_eq_true] at hgoes
  by_cases hnext : p.builder.finish.2.canContinue l = true
  · rw [step_of_opens session known hstays hgoes hnext] at h
    exact hbare (map_eq_error.mp h)
  · rw [Bool.not_eq_true] at hnext
    rw [step_of_adds session known hstays hgoes hnext] at h
    rcases bind_eq_error.mp h with hclosed | ⟨d, hclosed, h⟩
    · exact hbare hclosed
    · exact faults_of_addLexeme (openings_of_closes (closes_of_addClosed rfl hclosed))
        (map_eq_error.mp h)

/-- Where a draft with the last literal closed cannot end, nothing was closed. -/
theorem closeLast_incomplete {length : Nat} {d : Draft} (h : p.closeLast length = .ok d)
    (hincomplete : d.isIncomplete = true) : d = p.draft ∧ p.draft.pieces ≠ [] := by
  unfold closeLast at h
  split at h
  · rw [← Except.ok.inj h] at hincomplete ⊢
    refine ⟨rfl, fun hnil => ?_⟩
    rw [Draft.isIncomplete, hnil] at hincomplete
    exact Bool.false_ne_true hincomplete
  · unfold Draft.addLiteral at h
    split at h
    · cases h
    · rw [← Except.ok.inj h] at hincomplete
      exact absurd hincomplete Bool.false_ne_true

/-- What the errors at the end of a text are made of. -/
theorem lacks_of_finish {length : Nat} {e : PreparationError} (h : p.finish length = .error e) :
    p.Lacks length e := by
  rw [finish_eq] at h
  rcases hclosed : p.closeLast length with e' | d
  · rw [hclosed] at h
    rw [← Except.error.inj h]
    unfold closeLast at hclosed
    split at hclosed
    · cases hclosed
    · rename_i literal hliteral
      rw [addLiteral_eq_error hclosed]
      exact .bare (Literal.Builder.isOpen_of_finish hliteral)
  rw [hclosed] at h
  by_cases hincomplete : d.isIncomplete = true
  · rcases closeLast_incomplete hclosed hincomplete with ⟨rfl, hpieces⟩
    simp only [hincomplete, if_true, Except.error.injEq] at h
    rw [← h]
    exact .incomplete hpieces
  · have hopenings := (closeLast_ok hclosed).2.2.1
    rcases hplaces : d.openings with _ | ⟨place, outer⟩
    · simp only [hincomplete, hplaces, Bool.false_eq_true, if_false, reduceCtorEq] at h
    · simp only [hincomplete, hplaces, Bool.false_eq_true, if_false, Except.error.injEq] at h
      rw [← h]
      exact .unclosed place outer (hopenings ▸ hplaces)

end Preparation

/-- What an error says of its place, behind the lexemes that start at the given places.
    Its stretch of the text is not empty. An unexpected character is foreign, where none
    of the lexemes begins with such a character; a closing bracket is the first that is
    left over, and an opening one the last. -/
def PreparationError.Points (text : List Char) (starts : List Nat) (pos : Nat)
    (e : PreparationError) : Prop :=
  e.span.Within text.length ∧
    match e.cause with
    | .unexpectedCharacter c =>
      e.span = ⟨pos, pos + 1⟩ ∧ text[pos]? = some c ∧ Lexeme.Foreign c ∧
        ∀ i ∈ starts, i < pos ∧ ∃ d, text[i]? = some d ∧ ¬Lexeme.Foreign d
    | .unmatchedClosing =>
      e.span = ⟨pos, pos + 1⟩ ∧ Unopened text pos ∧ ∀ k < pos, ¬Unopened text k
    | .unclosedGroup =>
      ∃ place, e.span = ⟨place, place + 1⟩ ∧ Unclosed text place ∧
        ∀ i, place < i → ¬Unclosed text i
    | _ => True

namespace Preparation

variable {session : Radix} {known : String → Bool} {text : List Char} {p : Preparation}
  {l : Lexeme} {starts : List Nat} {pos : Nat}

/-- What the errors at a lexeme point at. -/
theorem points_of_faults {e : PreparationError} (hl : l.Occurs text) (h : Behind text l.start p)
    (he : p.Faults l e) : e.Points text starts l.start := by
  have hspan : l.span.Within text.length := ⟨hl.start_lt_stop, hl.stop_le⟩
  cases he with
  | bare hopen =>
      exact ⟨⟨h.literal hopen, h.pos_le⟩, trivial⟩
  | unmatched hkind hopenings =>
      rcases hl.closing hkind with ⟨c, hc, hcloses⟩
      have hstop : l.stop = l.start + 1 := by
        rw [Lexeme.stop, hc, List.length_singleton]
      have hlen : (text.take l.start).length = l.start := List.length_take_of_le h.pos_le
      have htext : text = text.take l.start ++ c :: text.drop l.stop := by
        rw [← List.singleton_append, ← hc, ← List.append_assoc, ← hl.take_stop,
          List.take_append_drop]
      -- Nothing is open, so the text in front of the bracket is balanced.
      have hleaves := h.openings
      rw [hopenings] at hleaves
      have hfirst : Unopened (text.take l.start ++ c :: text.drop l.stop)
            (text.take l.start).length ∧
          ∀ k < (text.take l.start).length,
            ¬Unopened (text.take l.start ++ c :: text.drop l.stop) k :=
        Brackets.unopened_of_balanced hleaves.balanced_of_nil hcloses
      rw [← htext, hlen] at hfirst
      exact ⟨hspan, by rw [Lexeme.span, hstop], hfirst⟩
  | misplaced _ | empty | incomplete => exact ⟨hspan, trivial⟩

/-- What the errors at the end of a text point at. -/
theorem points_of_lacks {e : PreparationError} (h : Behind text text.length p)
    (he : p.Lacks text.length e) : e.Points text starts text.length := by
  cases he with
  | bare hopen => exact ⟨⟨h.literal hopen, Nat.le_refl _⟩, trivial⟩
  | incomplete hpieces => exact ⟨h.zone hpieces, trivial⟩
  | unclosed place outer hopenings =>
      have hleaves := h.openings
      rw [List.take_length, hopenings] at hleaves
      exact ⟨⟨Nat.lt_succ_self _, hleaves.lt_length⟩, place, rfl, hleaves.unclosed⟩

/-- A walk that ends well has read a balanced text. -/
theorem balanced_of_finish {d : Draft} (h : Behind text text.length p)
    (hd : p.finish text.length = .ok d) : Balanced text := by
  rcases finish_ok hd with ⟨hclosed, hopenings, -⟩
  have hleaves := h.openings
  rw [List.take_length, ← (closeLast_ok hclosed).2.2.1, hopenings] at hleaves
  exact hleaves.balanced_of_nil

/-- However a walk ends, its outcome is a draft of a balanced text or an error that points
    at its cause. -/
theorem points_of_ends {r : Except PreparationError Draft}
    (h : Walked session known text starts pos p) (hends : Ends session known text pos p r) :
    (∀ d, r = .ok d → Balanced text) ∧ ∀ e, r = .error e → e.Points text starts pos := by
  have hbehind := behind_of_walked h
  have hnone : ∀ {e : PreparationError} (d : Draft), Except.error e = .ok d → Balanced text :=
    fun d hd => nomatch hd
  cases hends with
  | finished hpos =>
      rw [hpos] at hbehind
      refine ⟨fun d hd => balanced_of_finish hbehind hd, fun e he => ?_⟩
      rw [hpos]
      exact points_of_lacks hbehind (lacks_of_finish he)
  | unread hc hl =>
      refine ⟨hnone, fun e he => ?_⟩
      rw [← Except.error.inj he]
      exact ⟨⟨Nat.lt_succ_self _, (List.getElem?_eq_some_iff.mp hc).1⟩, rfl, hc,
        Lexeme.foreign_of_at? hc hl, (starts_of_walked h).2⟩
  | refused hl hstep =>
      refine ⟨hnone, fun e he => ?_⟩
      rw [← Except.error.inj he]
      rcases Lexeme.occurs_of_at? hl with ⟨rfl, hoccurs, -⟩
      exact points_of_faults hoccurs hbehind (faults_of_step hstep)

end Preparation

namespace Prepared

/-- Preparing a text walks over it once and ends, and an error points at its cause. The
    brackets of a text that is prepared belong together. -/
theorem ofText_points (registry : Registry) (session : Radix) (text : String) :
    (∀ starts pos p,
      Preparation.Walked session registry.contains text.toList starts pos p →
        starts.length ≤ pos ∧ pos ≤ text.toList.length) ∧
    ∃ starts pos p, Preparation.Walked session registry.contains text.toList starts pos p ∧
      Preparation.Ends session registry.contains text.toList pos p
        (Preparation.draftOf session registry.contains text.toList) ∧
      match ofText registry session text with
      | .ok _ => Balanced text.toList
      | .error e => e.Points text.toList starts pos := by
  refine ⟨fun starts pos p h =>
    ⟨(Preparation.starts_of_walked h).1, (Preparation.behind_of_walked h).pos_le⟩, ?_⟩
  rcases Preparation.exists_ends session registry.contains text.toList with
    ⟨starts, pos, p, hwalked, hends⟩
  refine ⟨starts, pos, p, hwalked, hends, ?_⟩
  rcases Preparation.points_of_ends hwalked hends with ⟨hbalanced, hpoints⟩
  unfold ofText
  rcases hdraft : Preparation.draftOf session registry.contains text.toList with e | d
  · exact hpoints e hdraft
  · exact hbalanced d hdraft

/-- Of the two brackets that are left over in `(1)]+(`, the closing one is at fault. -/
theorem ofText_points_closing :
    ofText Registry.standard .dec "(1)]+(" = .error ⟨.unmatchedClosing, ⟨3, 4⟩⟩ ∧
      Unopened "(1)]+(".toList 3 ∧ ∀ k < 3, ¬Unopened "(1)]+(".toList k := by
  have herror : ofText Registry.standard .dec "(1)]+(" = .error ⟨.unmatchedClosing, ⟨3, 4⟩⟩ := by
    decide +kernel
  rcases ofText_points Registry.standard .dec "(1)]+(" with ⟨-, starts, pos, p, -, -, hpoints⟩
  rw [herror] at hpoints
  rcases hpoints with ⟨-, hspan, hfirst⟩
  have hpos : 3 = pos := congrArg Span.start hspan
  rw [← hpos] at hfirst
  exact ⟨herror, hfirst⟩

end Prepared

end ExactCalc
