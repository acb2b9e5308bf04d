import ExactCalc.Prepared
import ExactCalc.Proofs.Lexeme
import ExactCalc.Word

/-!
# One Lexeme of a Text

What a walk over typed text can do with one lexeme, said once.

`Closes` lists what becomes of the open literal when a lexeme does not go on
with it, and `Moves` what the walk can do as a whole: glue the lexeme to a
refused digit, take it into the literal, close the literal and open another one
with it, or close the literal and add the lexeme by itself. Where pieces come
from in the text matters to messages only, and neither relation mentions it
except in passing.

A literal that is still open is a piece already as far as the written form goes,
so `shown` counts it among the pieces.

## Main definitions

* `Piece.link`: What is written between a row of pieces and one more.
* `Builder.shown`, `Preparation.shown`: The pieces, the open literal included.
* `Preparation.Closes`, `Preparation.Moves`: What one lexeme can do.
* `Preparation.walk`: The walk over the rest of a text.

## Theorems

* `write_reverse_cons`: One more piece at the end of a row.
* `step_of_stays`, `step_of_continues`, `step_of_opens`, `step_of_adds`: What the walk
  does with a lexeme, case by case.
* `moves_of_step`, `step_of_moves`: The list of moves is complete and exact.
* `walk_induction`: What every move preserves holds at the end of a walk.
* `finish_ok`, `finish_of_complete`: How a walk ends.
* `draftOf_of_ofText`: What is prepared has a draft.
-/

namespace ExactCalc

namespace Piece

/-- What is written between the pieces so far, the last one first, and a
    further piece. -/
def link : List Piece → Piece → List Char
  | [], _ => []
  | p :: _, q => joint p q

theorem write_append_pair (ps : List Piece) (p q : Piece) :
    write (ps ++ [p, q]) = write (ps ++ [p]) ++ (joint p q ++ q.text) := by
  induction ps with
  | nil => rfl
  | cons r rs ih =>
      cases rs with
      | nil =>
          show r.text ++ (joint r p ++ (p.text ++ (joint p q ++ q.text))) =
            (r.text ++ (joint r p ++ p.text)) ++ (joint p q ++ q.text)
          rw [List.append_assoc, List.append_assoc]
      | cons s ss =>
          simp only [List.cons_append] at ih ⊢
          rw [write_cons_cons, write_cons_cons, ih, List.append_assoc, List.append_assoc]

/-- One more piece at the end of a row. -/
theorem write_reverse_cons (ps : List Piece) (q : Piece) :
    write (q :: ps).reverse = write ps.reverse ++ (link ps q ++ q.text) := by
  cases ps with
  | nil => rfl
  | cons p ps =>
      rw [List.reverse_cons, List.reverse_cons, List.append_assoc]
      exact write_append_pair ps.reverse p q

@[simp] theorem link_cons (p q : Piece) (ps : List Piece) : link (p :: ps) q = joint p q := rfl

/-- Nothing is written in front of what starts no operand. -/
theorem link_of_not_starts {q : Piece} (ps : List Piece) (h : q.startsOperand = false) :
    link ps q = [] := by
  cases ps with
  | nil => rfl
  | cons p ps =>
      rw [link_cons]
      unfold joint
      rw [h]
      rfl

end Piece

/-- A row of pieces, the last one first, and the literal that is still open
    behind it. -/
def Literal.Builder.shown (b : Literal.Builder) (ps : List Piece) : List Piece :=
  match b.finish.1 with
  | none => ps
  | some literal => .number literal.normal :: ps

theorem Draft.pieces_of_endsRefused {d : Draft} (h : d.endsRefused = true) :
    ∃ t ps, d.pieces = .refused t :: ps := by
  unfold endsRefused at h
  split at h
  · rename_i t ps hpieces
    exact ⟨t, ps, hpieces⟩
  · exact absurd h Bool.false_ne_true

theorem Draft.pieces_ne_refused {d : Draft} (h : d.endsRefused = false) (t : List Char)
    (ps : List Piece) : d.pieces ≠ .refused t :: ps := by
  intro hpieces
  rw [Draft.endsRefused, hpieces] at h
  exact absurd h (by simp only [Bool.true_eq_false, not_false_eq_true])

/-- A bracket is closed behind an operand that an open bracket stands before. -/
theorem Draft.close_eq_ok {d d' : Draft} {zone : Span} :
    d.close zone = .ok d' ↔ ∃ pos outer, d.openings = pos :: outer ∧ d.endsOpening = false ∧
      d.isIncomplete = false ∧ d' = { d.add .closing zone with openings := outer } := by
  unfold Draft.close
  rcases hopenings : d.openings with _ | ⟨pos, outer⟩
  · refine iff_of_false (by simp) ?_
    rintro ⟨_, _, h, -⟩
    cases h
  · constructor
    · intro h
      by_cases hempty : d.endsOpening = true
      · simp only [hempty, if_true, reduceCtorEq] at h
      by_cases hincomplete : d.isIncomplete = true
      · simp only [hempty, hincomplete, Bool.false_eq_true, if_false, if_true, reduceCtorEq] at h
      simp only [hempty, hincomplete, Bool.false_eq_true, if_false, Except.ok.injEq] at h
      exact ⟨pos, outer, rfl, Bool.not_eq_true _ ▸ hempty, Bool.not_eq_true _ ▸ hincomplete, h.symm⟩
    · rintro ⟨_, _, h, hempty, hincomplete, rfl⟩
      rw [List.cons.injEq] at h
      simp only [hempty, hincomplete, Bool.false_eq_true, if_false, h.2]

namespace Preparation

/-- The pieces so far, the open literal included. -/
def shown (p : Preparation) : List Piece := p.builder.shown p.draft.pieces

/-- A lexeme that stays with the refused digit before it. -/
def Stays (p : Preparation) (l : Lexeme) : Prop :=
  p.draft.endsRefused = true ∧ (l.kind = .digit ∨ l.kind = .point ∨ l.kind = .exponent)

/-- What becomes of the open literal when a lexeme does not go on with it. The
    lexeme may or may not open the next literal. -/
inductive Closes (p : Preparation) (l : Lexeme) (opens : Bool) : Draft → Prop where
  | nothing (h : p.builder.finish.1 = none) : Closes p l opens p.draft
  | number (literal : Literal) (h : p.builder.finish.1 = some literal)
      (hdigits : literal.digits ≠ []) :
      Closes p l opens (p.draft.add (.number literal.normal) ⟨p.literalStart, l.start⟩)
  | bare (literal : Literal) (h : p.builder.finish.1 = some literal)
      (hdigits : literal.digits = []) (hkind : l.kind = .digit) (hopens : opens = false) :
      Closes p l opens (p.draft.add (.refused literal.radix.marker) ⟨p.literalStart, l.start⟩)

/-- What the walk can do with one lexeme: the builder and the draft after it. -/
inductive Moves (session : Radix) (known : String → Bool) (p : Preparation) (l : Lexeme) :
    Literal.Builder → Draft → Prop where
  | glued (hstays : p.Stays l) : Moves session known p l p.builder (p.draft.addRefused session l)
  | taken (hstays : ¬p.Stays l) (hgoes : p.builder.canContinue l = true) :
      Moves session known p l (p.builder.absorb l) p.draft
  | opened (d : Draft) (hstays : ¬p.Stays l) (hgoes : p.builder.canContinue l = false)
      (hnext : p.builder.finish.2.canContinue l = true) (hd : p.Closes l true d) :
      Moves session known p l (p.builder.finish.2.absorb l) d
  | added (d d' : Draft) (hstays : ¬p.Stays l) (hgoes : p.builder.canContinue l = false)
      (hnext : p.builder.finish.2.canContinue l = false) (hd : p.Closes l false d)
      (hadd : d.addLexeme session known l = .ok d') :
      Moves session known p l p.builder.finish.2 d'

variable {session : Radix} {known : String → Bool} {p p' : Preparation} {l : Lexeme}

theorem closes_of_addClosed {o : Literal.Builder.Outcome} {d : Draft}
    (ho : o.closed = p.builder.finish.1) (h : p.addClosed l o = .ok d) :
    p.Closes l o.absorbed d := by
  unfold addClosed Draft.addLiteral at h
  rw [ho] at h
  split at h
  · rename_i hnone
    rw [← Except.ok.inj h]
    exact .nothing hnone
  · rename_i literal hsome
    simp only [] at h
    split at h
    · rename_i hbare
      rw [Bool.and_eq_true, Bool.and_eq_true, List.isEmpty_iff, beq_iff_eq,
        Bool.not_eq_true'] at hbare
      rw [← Except.ok.inj h]
      exact .bare literal hsome hbare.1.1 hbare.1.2 hbare.2
    · split at h
      · cases h
      · rename_i hdigits
        rw [← Except.ok.inj h]
        exact .number literal hsome (fun hnil => hdigits (List.isEmpty_iff.mpr hnil))

theorem addClosed_of_closes {o : Literal.Builder.Outcome} {d : Draft}
    (ho : o.closed = p.builder.finish.1) (h : p.Closes l o.absorbed d) :
    p.addClosed l o = .ok d := by
  unfold addClosed Draft.addLiteral
  cases h with
  | nothing h => rw [ho, h]
  | number literal h hdigits =>
      have hempty : literal.digits.isEmpty = false := by
        rw [← Bool.not_eq_true, List.isEmpty_iff]
        exact hdigits
      rw [ho, h]
      simp only [hempty, Bool.false_and, Bool.false_eq_true, if_false]
  | bare literal h hdigits hkind hopens =>
      rw [ho, h]
      simp only [hdigits, hkind, hopens, List.isEmpty_nil, beq_self_eq_true, Bool.not_false,
        Bool.and_self, if_true]

theorem accept_of_continues (b : Literal.Builder) (h : b.canContinue l = true) :
    b.accept l = (⟨none, true⟩, b.absorb l) := by
  rw [Literal.Builder.accept, if_pos h]

theorem stays_iff : p.Stays l ↔
    (p.draft.endsRefused && (l.kind == .digit || l.kind == .point || l.kind == .exponent)) =
      true := by
  rw [Bool.and_eq_true, Bool.or_eq_true, Bool.or_eq_true, beq_iff_eq, beq_iff_eq, beq_iff_eq,
    or_assoc, Stays]

section Cases

variable (session known)

/-- A lexeme that stays with a refused digit is glued to it. -/
theorem step_of_stays (h : p.Stays l) :
    step session known p l = .ok { p with draft := p.draft.addRefused session l } := by
  rw [step, if_pos (stays_iff.mp h)]

/-- A literal that goes on starts where it has started, unless it starts now. -/
theorem step_of_continues (hstays : ¬p.Stays l) (hgoes : p.builder.canContinue l = true) :
    step session known p l =
      .ok ⟨p.builder.absorb l, if p.builder.isOpen then p.literalStart else l.start, p.draft⟩ := by
  rw [step, if_neg (fun hs => hstays (stays_iff.mpr hs)), accept_of_continues _ hgoes]
  cases hopen : p.builder.isOpen <;> simp [addClosed]

/-- A lexeme that goes on with nothing may open the next literal. -/
theorem step_of_opens (hstays : ¬p.Stays l) (hgoes : p.builder.canContinue l = false)
    (hnext : p.builder.finish.2.canContinue l = true) :
    step session known p l =
      (p.addClosed l ⟨p.builder.finish.1, true⟩).map
        fun d => ⟨p.builder.finish.2.absorb l, l.start, d⟩ := by
  -- A literal has been open and is closed, or none has been.
  have hopened : (!p.builder.isOpen || p.builder.finish.1.isSome) = true := by
    unfold Literal.Builder.isOpen Literal.Builder.finish
    cases p.builder.current <;> rfl
  rw [step, if_neg (fun hs => hstays (stays_iff.mpr hs)), Literal.Builder.accept]
  simp only [hgoes, hnext, hopened, Bool.false_eq_true, if_false, if_true, Bool.true_and]
  cases p.addClosed l ⟨p.builder.finish.1, true⟩ <;> rfl

/-- Otherwise it is added by itself. -/
theorem step_of_adds (hstays : ¬p.Stays l) (hgoes : p.builder.canContinue l = false)
    (hnext : p.builder.finish.2.canContinue l = false) :
    step session known p l =
      (p.addClosed l ⟨p.builder.finish.1, false⟩).bind fun d =>
        (d.addLexeme session known l).map fun d' => ⟨p.builder.finish.2, p.literalStart, d'⟩ := by
  rw [step, if_neg (fun hs => hstays (stays_iff.mpr hs)), Literal.Builder.accept]
  simp only [hgoes, hnext, Bool.false_eq_true, if_false, Bool.false_and]
  cases p.addClosed l ⟨p.builder.finish.1, false⟩ <;> rfl

end Cases

/-- The walk does nothing with a lexeme but one of the moves. -/
theorem moves_of_step (h : step session known p l = .ok p') :
    Moves session known p l p'.builder p'.draft := by
  by_cases hstays : p.Stays l
  · rw [step_of_stays session known hstays] at h
    rw [← Except.ok.inj h]
    exact .glued hstays
  by_cases hgoes : p.builder.canContinue l = true
  · rw [step_of_continues session known hstays hgoes] at h
    rw [← Except.ok.inj h]
    exact .taken hstays hgoes
  rw [Bool.not_eq_true] at hgoes
  -- The open literal is closed, and the lexeme opens another one or stands for itself.
  by_cases hnext : p.builder.finish.2.canContinue l = true
  · rw [step_of_opens session known hstays hgoes hnext] at h
    rcases map_eq_ok.mp h with ⟨d, hclosed, rfl⟩
    exact .opened d hstays hgoes hnext (closes_of_addClosed rfl hclosed)
  · rw [Bool.not_eq_true] at hnext
    rw [step_of_adds session known hstays hgoes hnext] at h
    rcases bind_eq_ok.mp h with ⟨d, hclosed, h⟩
    rcases map_eq_ok.mp h with ⟨d', hadd, rfl⟩
    exact .added d d' hstays hgoes hnext (closes_of_addClosed rfl hclosed) hadd

/-- Every move is one that the walk makes. -/
theorem step_of_moves {b : Literal.Builder} {d : Draft} (h : Moves session known p l b d) :
    ∃ p', step session known p l = .ok p' ∧ p'.builder = b ∧ p'.draft = d := by
  cases h with
  | glued hstays =>
      rw [step_of_stays session known hstays]
      exact ⟨_, rfl, rfl, rfl⟩
  | taken hstays hgoes =>
      rw [step_of_continues session known hstays hgoes]
      exact ⟨_, rfl, rfl, rfl⟩
  | opened d hstays hgoes hnext hd =>
      rw [step_of_opens session known hstays hgoes hnext,
        addClosed_of_closes (o := ⟨p.builder.finish.1, true⟩) rfl hd]
      exact ⟨_, rfl, rfl, rfl⟩
  | added d d' hstays hgoes hnext hd hadd =>
      rw [step_of_adds session known hstays hgoes hnext,
        addClosed_of_closes (o := ⟨p.builder.finish.1, false⟩) rfl hd, Except.bind, hadd]
      exact ⟨_, rfl, rfl, rfl⟩

/-- The walk over the rest of a text, from a character and a position on. -/
def walk (session : Radix) (known : String → Bool) (prev : Option Char) (pos : Nat)
    (cs : List Char) (p : Preparation) : Except PreparationError Preparation :=
  Lexeme.scan (·.builder.isHex) (step session known)
    (fun _ pos c => ⟨.unexpectedCharacter c, ⟨pos, pos + 1⟩⟩) prev pos cs p

theorem draftOf_eq_walk (session : Radix) (known : String → Bool) (text : List Char) :
    draftOf session known text =
      match walk session known none 0 text (start session) with
      | .error e => .error e
      | .ok p => p.finish text.length := rfl

@[simp] theorem walk_nil (prev : Option Char) (pos : Nat) (p : Preparation) :
    walk session known prev pos [] p = .ok p := by
  rw [walk, Lexeme.scan]

theorem walk_cons {prev : Option Char} {c : Char} {cs : List Char} {kind : Lexeme.Kind} {n : Nat}
    (hrec : Lexeme.recognise prev p.builder.isHex c cs = some (kind, n)) (pos : Nat)
    (hstep : step session known p ⟨kind, c :: cs.take n, pos⟩ = .ok p') :
    walk session known prev pos (c :: cs) p =
      walk session known (c :: cs.take n).getLast? (pos + (c :: cs.take n).length) (cs.drop n)
        p' := by
  rw [walk, Lexeme.scan, hrec]
  simp only [hstep]
  rfl

/-- A walk that goes well has recognised its first lexeme and made a move with
    it. -/
theorem walk_cons_ok {prev : Option Char} {pos : Nat} {c : Char} {cs : List Char}
    {p'' : Preparation} (h : walk session known prev pos (c :: cs) p = .ok p'') :
    ∃ kind n p', Lexeme.recognise prev p.builder.isHex c cs = some (kind, n) ∧
      step session known p ⟨kind, c :: cs.take n, pos⟩ = .ok p' ∧
      walk session known (c :: cs.take n).getLast? (pos + (c :: cs.take n).length) (cs.drop n)
        p' = .ok p'' := by
  rw [walk, Lexeme.scan] at h
  split at h
  · cases h
  · rename_i kind n hrec
    simp only [] at h
    split at h
    · cases h
    · rename_i p' hstep
      exact ⟨kind, n, p', hrec, hstep, h⟩

/-- What holds at the start of a walk and is preserved by every move holds at
    its end. -/
theorem walk_induction {I : Option Char → List Char → Preparation → Prop}
    (hmove : ∀ prev pos c cs kind n p p',
      Lexeme.Recognised prev p.builder.isHex c cs kind n → I prev (c :: cs) p →
      Moves session known p ⟨kind, c :: cs.take n, pos⟩ p'.builder p'.draft →
      I (c :: cs.take n).getLast? (cs.drop n) p')
    {prev : Option Char} {pos : Nat} {cs : List Char} (hstart : I prev cs p)
    (h : walk session known prev pos cs p = .ok p') : ∃ last, I last [] p' := by
  refine (Lexeme.scan_induction _ _ _ (fun prev pos c cs kind n q q' hrec hq hstep => ?_)
    hstart).1 p' h
  exact hmove prev pos c cs kind n q q' hrec hq (moves_of_step hstep)

/-- The draft at the end of a text, the open literal closed. -/
def closeLast (p : Preparation) (length : Nat) : Except PreparationError Draft :=
  match p.builder.finish.1 with
  | none => .ok p.draft
  | some literal => p.draft.addLiteral literal ⟨p.literalStart, length⟩

/-- Nothing but the open literal is added at the end, and it has digits. -/
theorem closeLast_ok {length : Nat} {d : Draft} (h : p.closeLast length = .ok d) :
    d.pieces = p.shown ∧ d.undefinedNames = p.draft.undefinedNames ∧
      d.openings = p.draft.openings ∧
      ∀ literal, p.builder.finish.1 = some literal → literal.digits ≠ [] := by
  unfold closeLast at h
  unfold shown Literal.Builder.shown
  rcases hfinish : p.builder.finish.1 with _ | literal
  · rw [hfinish] at h
    rw [← Except.ok.inj h]
    exact ⟨rfl, rfl, rfl, fun _ h => (nomatch h)⟩
  · rw [hfinish] at h
    unfold Draft.addLiteral at h
    by_cases hempty : literal.digits.isEmpty = true
    · simp only [hempty, if_true, reduceCtorEq] at h
    · simp only [hempty, Bool.false_eq_true, if_false] at h
      rw [← Except.ok.inj h]
      refine ⟨rfl, rfl, rfl, fun other hother hnil => ?_⟩
      rw [Option.some.injEq] at hother
      exact absurd (List.isEmpty_iff.mpr (hother ▸ hnil)) hempty

theorem finish_eq (p : Preparation) (length : Nat) :
    p.finish length =
      match p.closeLast length with
      | .error e => .error e
      | .ok d =>
        if d.isIncomplete then .error ⟨.incomplete, d.zone⟩
        else
          match d.openings with
          | pos :: _ => .error ⟨.unclosedGroup, ⟨pos, pos + 1⟩⟩
          | [] => .ok d := rfl

theorem finish_ok {length : Nat} {d : Draft} (h : p.finish length = .ok d) :
    p.closeLast length = .ok d ∧ d.openings = [] ∧ d.isIncomplete = false := by
  rw [finish_eq] at h
  rcases hclosed : p.closeLast length with e | closed
  · rw [hclosed] at h
    cases h
  rw [hclosed] at h
  by_cases hincomplete : closed.isIncomplete = true
  · simp only [hincomplete, if_true, reduceCtorEq] at h
  rcases hopenings : closed.openings with _ | ⟨pos, outer⟩
  · simp only [hincomplete, hopenings, Bool.false_eq_true, if_false] at h
    rw [← Except.ok.inj h]
    exact ⟨rfl, hopenings, Bool.not_eq_true _ ▸ hincomplete⟩
  · simp only [hincomplete, hopenings, Bool.false_eq_true, if_false, reduceCtorEq] at h

/-- A walk ends well where the open literal has digits, no bracket is open, and
    the last piece is no operator and no function. -/
theorem finish_of_complete (length : Nat)
    (hdigits : ∀ literal, p.builder.finish.1 = some literal → literal.digits ≠ [])
    (hopenings : p.draft.openings = [])
    (hcomplete : ({ p.draft with pieces := p.shown } : Draft).isIncomplete = false) :
    ∃ d, p.finish length = .ok d ∧ d.pieces = p.shown ∧
      d.undefinedNames = p.draft.undefinedNames := by
  rw [finish_eq]
  unfold closeLast
  unfold shown Literal.Builder.shown at hcomplete ⊢
  rcases hfinish : p.builder.finish.1 with _ | literal
  · rw [hfinish] at hcomplete
    have hdraft : p.draft.isIncomplete = false := hcomplete
    simp only [hdraft, hopenings, Bool.false_eq_true, if_false]
    exact ⟨_, rfl, rfl, rfl⟩
  · rw [hfinish] at hcomplete
    have hempty : literal.digits.isEmpty = false := by
      rw [← Bool.not_eq_true, List.isEmpty_iff]
      exact hdigits literal hfinish
    simp only [Draft.addLiteral, hempty, Bool.false_eq_true, if_false, Draft.add, hopenings]
    exact ⟨_, rfl, rfl, rfl⟩

end Preparation

theorem eq_ok_of_toOption {ε α : Type} {x : Except ε α} {a : α}
    (h : x.toOption = some a) : x = .ok a := by
  cases x with
  | error e =>
      cases h
  | ok b =>
      rw [Option.some.inj h]

namespace Prepared

theorem draftOf_of_ofText {registry : Registry} {session : Radix} {s : String} {p : Prepared}
    (h : ofText registry session s = .ok p) :
    ∃ d, Preparation.draftOf session registry.contains s.toList = .ok d ∧ ofDraft d = p := by
  exact map_eq_ok.mp h

theorem pieces_ne_nil {d : Draft} (h : (ofDraft d).expression ≠ "") : d.pieces ≠ [] := by
  intro hnil
  rw [ofDraft, hnil] at h
  exact h rfl

end Prepared

end ExactCalc
