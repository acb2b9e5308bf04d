import ExactCalc.Proofs.Literal
import ExactCalc.Proofs.Prepared.Step

/-!
# Nothing Is Lost

Preparing a text drops nothing but separators, so the written form holds at
least as many other characters as the text.

The count is kept at every lexeme. A marker is written in its long form, a
literal with the digits typed and perhaps a marker in front, a sign as one
character, a name as it stands; and wherever two pieces meet, what is written
between them only adds to the count. So a walk that has once written more than
it has read ends with more than the whole text, and that is how two texts are
told apart without following the walk to its end.

## Main definitions

* `weight`: How many characters of a text are no separators.

## Theorems

* `weight_moves`: A move adds at least the weight of its lexeme.
* `weight_walk`: A walk adds at least the weight of its text.
-/

namespace ExactCalc

/-- How many characters of a text are no separators. -/
def weight (cs : List Char) : Nat :=
  cs.countP (fun c => !Numeral.isSeparator c)

@[simp, grind =]
theorem weight_append (as bs : List Char) : weight (as ++ bs) = weight as + weight bs :=
  List.countP_append

theorem weight_le_length (cs : List Char) : weight cs ≤ cs.length :=
  List.countP_le_length

namespace Piece

/-- A multiplication sign is all that is ever written between two pieces and
    counts. -/
theorem weight_joint (p q : Piece) :
    weight (joint p q) = if p.endsOperand && q.startsOperand then 1 else 0 := by
  unfold joint
  by_cases hq : q.startsOperand = true
  · by_cases hp : p.endsOperand = true
    · simp only [hq, hp, Bool.not_true, Bool.false_eq_true, if_false, if_true, Bool.and_self]
      decide
    · simp only [hq, hp, Bool.not_true, Bool.false_eq_true, if_false, Bool.false_and]
      split
      · split <;> decide
      · rfl
  · simp only [hq, Bool.not_false, if_true, Bool.and_false, Bool.false_eq_true, if_false]
    rfl

/-- The weight of what is written depends on the kinds of the pieces alone. -/
theorem weight_link_number (ps : List Piece) (s t : List Char) :
    weight (link ps (.number s)) = weight (link ps (.refused t)) := by
  cases ps with
  | nil => rfl
  | cons p ps => rw [link, link, weight_joint, weight_joint]; rfl

theorem weight_link_left (ps : List Piece) (p p' q : Piece)
    (h : p.endsOperand = p'.endsOperand) :
    weight (link (p :: ps) q) = weight (link (p' :: ps) q) := by
  rw [link, link, weight_joint, weight_joint, h]

theorem weight_cons (ps : List Piece) (q : Piece) :
    weight (write (q :: ps).reverse) =
      weight (write ps.reverse) + (weight (link ps q) + weight q.text) := by
  rw [write_reverse_cons, weight_append, weight_append]

end Piece

@[simp] theorem weight_marker (r : Radix) : weight r.marker = 3 := by
  cases r <;> decide

theorem weight_normal (l : Literal) :
    weight l.normal = (if l.explicit || l.radix ≠ .dec then 3 else 0) + weight l.body := by
  have hdigits : weight l.digits = weight l.body := by
    rw [weight, Literal.digits, List.countP_filter]
    simp only [Bool.and_self]
    rfl
  unfold Literal.normal
  split
  · rw [weight_append, weight_marker, hdigits]
  · rw [hdigits, Nat.zero_add]

theorem weight_body_le (r : Radix) (explicit : Bool) (body : List Char) :
    weight body ≤ weight (Literal.normal ⟨r, explicit, body⟩) := by
  rw [weight_normal]
  exact Nat.le_add_left _ _

namespace Preparation

open Piece (write link)

variable {session : Radix} {known : String → Bool} {p p' : Preparation} {l : Lexeme}

/-- Closing a literal loses nothing. -/
theorem weight_closes {opens : Bool} {d : Draft} (h : p.Closes l opens d) :
    weight (write p.shown.reverse) ≤ weight (write d.pieces.reverse) := by
  unfold shown Literal.Builder.shown
  cases h with
  | nothing h => simp only [h]; exact Nat.le_refl _
  | number literal h => simp only [h]; exact Nat.le_refl _
  | bare literal h hdigits =>
      -- The marker is written even where the literal would have been without one.
      have hnormal : weight literal.normal ≤ weight literal.radix.marker := by
        unfold Literal.normal
        rw [hdigits]
        split
        · exact Nat.le_of_eq (congrArg weight (List.append_nil _))
        · exact Nat.zero_le _
      have hlink := Piece.weight_link_number p.draft.pieces literal.normal literal.radix.marker
      simp only [h, Draft.add, Piece.weight_cons, Piece.text]
      omega

theorem weight_absorb {b : Literal.Builder} (ps : List Piece)
    (hlen : l.kind = .marker → 2 ≤ l.text.length ∧ l.text.length ≤ 3)
    (h : b.canContinue l = true) :
    weight (write (b.shown ps).reverse) + weight l.text ≤
      weight (write ((b.absorb l).shown ps).reverse) := by
  unfold Literal.Builder.absorb Literal.Builder.shown
  by_cases hkind : l.kind = .marker
  · -- A marker is written in full for the empty literal that it opens.
    have hcurrent := Literal.Builder.current_of_marker hkind (hlen hkind).1 h
    have hle := Nat.le_trans (weight_le_length l.text) (hlen hkind).2
    rw [if_pos hkind]
    simp only [Literal.Builder.finish, hcurrent, Piece.weight_cons, Piece.text, weight_normal,
      Bool.true_or, if_true]
    omega
  · rw [if_neg hkind]
    rcases hcurrent : b.current with _ | body
    · simp only [Literal.Builder.finish, hcurrent, Option.getD_none, List.nil_append,
        Piece.weight_cons, Piece.text, weight_normal]
      omega
    · simp only [Literal.Builder.finish, hcurrent, Option.getD_some, Piece.weight_cons, Piece.text,
        weight_normal, weight_append]
      have hlink : weight (Piece.link ps (.number (Literal.normal ⟨b.active, b.explicit, body⟩))) =
          weight (Piece.link ps
            (.number (Literal.normal ⟨b.active, b.explicit, body ++ l.text⟩))) := by
        rw [Piece.weight_link_number ps _ [], Piece.weight_link_number ps _ []]
      omega

theorem weight_addRefused (d : Draft) (session : Radix) (l : Lexeme) :
    weight (write d.pieces.reverse) + weight l.text ≤
      weight (write (d.addRefused session l).pieces.reverse) := by
  unfold Draft.addRefused
  split
  · rename_i t ps hpieces
    have hlink := Piece.weight_link_number ps t (t ++ l.text)
    rw [hpieces]
    simp only [Piece.weight_cons, Piece.text, weight_append]
    omega
  · rename_i t ps hpieces
    have hlink := Piece.weight_link_number ps t (t ++ l.text)
    have hlink' := Piece.weight_link_number ps t t
    rw [hpieces]
    simp only [Piece.weight_cons, Piece.text, weight_append]
    omega
  · simp only [Draft.add, Piece.weight_cons, Piece.text]
    split
    · omega
    · rw [weight_append]
      omega

section Cutting

variable {prev : Option Char} {hex : Bool} {c : Char} {cs : List Char} {kind : Lexeme.Kind}
  {n pos : Nat}

theorem weight_lexeme (h : Lexeme.Recognised prev hex c cs kind n)
    (hkind : kind = .operator ∨ kind = .constant) :
    weight (c :: cs.take n) ≤ weight (Lexeme.normal ⟨kind, c :: cs.take n, pos⟩) := by
  cases h with
  | operator h =>
      have hall : ∀ c ∈ Lexeme.operatorSigns,
          weight [c] ≤ weight (if [c] = ['×'] then ['*'] else if [c] = ['÷'] then ['/'] else [c]) :=
        Text.forall_of_all (by decide)
      exact hall c h
  | circle h | name h =>
      unfold Lexeme.normal
      simp only []
      split
      · rename_i hpi
        rw [hpi]
        decide
      · exact Nat.le_refl _
  | _ => rcases hkind with h | h <;> cases h

/-- A lexeme by itself is written as a piece, unless it is a separator. -/
theorem weight_addLexeme {d d' : Draft} (h : Lexeme.Recognised prev hex c cs kind n)
    (hadd : d.addLexeme session known ⟨kind, c :: cs.take n, pos⟩ = .ok d') :
    weight (write d.pieces.reverse) + weight (c :: cs.take n) ≤
      weight (write d'.pieces.reverse) := by
  have hnormal : kind = .operator ∨ kind = .constant →
      weight (c :: cs.take n) ≤ weight (Lexeme.normal ⟨kind, c :: cs.take n, pos⟩) :=
    weight_lexeme h
  unfold Draft.addLexeme at hadd
  -- A separator weighs nothing, and every other lexeme is written, as it is or as its normal
  -- form, which weighs no less.
  cases kind with
  | separator =>
      cases h with
      | separator h =>
          have hzero : weight [c] = 0 := by
            rw [weight, List.countP_eq_zero]
            intro d hd
            rw [List.mem_singleton.mp hd, h]
            exact Bool.false_ne_true
          rw [← Except.ok.inj hadd]
          exact Nat.le_of_eq (by rw [List.take_zero, hzero, Nat.add_zero])
  | digit | point | exponent | marker =>
      rw [← Except.ok.inj hadd]
      exact weight_addRefused d session ⟨_, c :: cs.take n, pos⟩
  | operator =>
      simp only [] at hadd
      split at hadd
      · cases hadd
      · have hle := hnormal (.inl rfl)
        rw [← Except.ok.inj hadd]
        simp only [Draft.add, Piece.weight_cons, Piece.text]
        omega
  | opening =>
      cases h with
      | opening h =>
          have hle := weight_le_length (c :: cs.take 0)
          rw [← Except.ok.inj hadd]
          simp only [Draft.add, Piece.weight_cons, Piece.text]
          exact Nat.add_le_add_left (Nat.le_trans hle (Nat.le_add_left 1 _)) _
  | closing =>
      cases h with
      | closing h =>
          have hle := weight_le_length (c :: cs.take 0)
          rcases Draft.close_eq_ok.mp hadd with ⟨_, _, -, -, -, rfl⟩
          simp only [Draft.add, Piece.weight_cons, Piece.text]
          exact Nat.add_le_add_left (Nat.le_trans hle (Nat.le_add_left 1 _)) _
  | function =>
      rw [← Except.ok.inj hadd]
      simp only [Draft.add, Piece.weight_cons, Piece.text]
      omega
  | constant =>
      have hle := hnormal (.inr rfl)
      rw [← Except.ok.inj hadd]
      simp only [Draft.addConstant, Draft.add, Piece.weight_cons, Piece.text]
      omega

/-- A move adds at least the weight of its lexeme. -/
theorem weight_moves (h : Lexeme.Recognised prev hex c cs kind n)
    (hmove : Moves session known p ⟨kind, c :: cs.take n, pos⟩ p'.builder p'.draft) :
    weight (write p.shown.reverse) + weight (c :: cs.take n) ≤ weight (write p'.shown.reverse) := by
  have hlen := h.marker_length
  have hfresh := Literal.Builder.current_finish p.builder
  have hclosed : ∀ ps, p.builder.finish.2.shown ps = ps := by
    intro ps
    rw [Literal.Builder.shown, Literal.Builder.finish_of_current_eq_none hfresh]
  unfold shown
  generalize hb : p'.builder = b at hmove
  generalize hd : p'.draft = d at hmove
  cases hmove with
  | glued hstays =>
      -- The literal that is still open behind a refused digit keeps its place.
      have hadded := weight_addRefused p.draft session ⟨kind, c :: cs.take n, pos⟩
      rcases Draft.pieces_of_endsRefused hstays.1 with ⟨t, ps, hpieces⟩
      unfold Literal.Builder.shown
      rcases p.builder.finish.1 with _ | literal
      · exact hadded
      · simp only [Draft.addRefused, hpieces, Piece.weight_cons] at hadded ⊢
        have hlink := Piece.weight_link_left ps (.refused t) (.refused (t ++ c :: cs.take n))
          (.number literal.normal) rfl
        omega
  | taken hstays hgoes => exact weight_absorb _ hlen hgoes
  | opened _ hstays hgoes hnext hd =>
      have hle := weight_closes hd
      have habsorb := weight_absorb d.pieces hlen hnext
      rw [hclosed] at habsorb
      exact Nat.le_trans (Nat.add_le_add_right hle _) habsorb
  | added d' _ hstays hgoes hnext hd hadd =>
      have hle := weight_closes hd
      have hadded := weight_addLexeme h hadd
      rw [hclosed]
      unfold shown at hle
      omega

end Cutting

/-- A walk adds at least the weight of its text, so what it has written ahead of
    the text it stays ahead. -/
theorem weight_walk {prev : Option Char} {pos : Nat} {cs : List Char}
    (h : walk session known prev pos cs p = .ok p') :
    weight (write p.shown.reverse) + weight cs ≤ weight (write p'.shown.reverse) := by
  -- What has been written and what is left to read never weigh less together.
  have hend := walk_induction
    (I := fun _ rest q => weight (write p.shown.reverse) + weight cs ≤
      weight (write q.shown.reverse) + weight rest)
    (fun prev pos c rest kind n q q' hrec hq hmove => ?_) (Nat.le_refl _) h
  · rcases hend with ⟨-, hle⟩
    exact hle
  · have hle := weight_moves hrec hmove
    have hsplit := weight_append (c :: rest.take n) (rest.drop n)
    rw [List.cons_append, List.take_append_drop] at hsplit
    omega

end Preparation

end ExactCalc
