import ExactCalc.Proofs.Prepared.Reread

/-!
# A Text Within Another

How a text is walked over in the middle of another one.

A walk looks back at three things only: the character before, the last piece, and the
names that are listed already. Behind an opening bracket the first two are what they are
where nothing stands in front, so a text is walked over there as it is when it stands
alone, except that a name which is listed is not listed again. The brackets that it
closes are its own, since alone it could close no others. And it is not changed by what
comes behind, as long as no lexeme runs on into that.

The pieces in front are kept in a `Frame`, and `Within` says of two walks that they
differ by a frame. Every move of the one can be made by the other, whatever the
positions are, and so can a whole walk. A group is then an opening bracket, a text
within what stands in front of it, and a closing bracket.

## Main definitions

* `Frame`, `Frame.Opens`: What stands in front of a text.
* `Draft.Within`, `Preparation.Within`: The same text behind a frame.

## Theorems

* `within_moves`: Every move can be made behind a frame.
* `reach_within`: So can a walk.
* `reach_group`: A group is read as its text is read alone.
-/

namespace ExactCalc

/-- What stands in front of a text: the pieces, the last one first, how many brackets are
    open, and the names that are listed. -/
structure Frame where
  pieces : List Piece
  depth : Nat
  names : List String
  deriving DecidableEq, Repr

/-- Nothing stands in front, or what stands there has just opened a bracket. -/
def Frame.Opens (f : Frame) : Prop :=
  ∀ q ∈ f.pieces.head?, q = .opening

/-- The draft of a text alone, and its draft behind a frame. -/
structure Draft.Within (f : Frame) (d d' : Draft) : Prop where
  pieces : d'.pieces = d.pieces ++ f.pieces
  depth : d'.openings.length = d.openings.length + f.depth
  names : d'.undefinedNames =
    f.names ++ d.undefinedNames.filter fun name => !f.names.contains name
  rooted : d.openings ≠ [] → d.pieces ≠ []

/-- The walk over a text alone, and the walk behind a frame. -/
structure Preparation.Within (f : Frame) (p q : Preparation) : Prop where
  builder : q.builder = p.builder
  draft : p.draft.Within f q.draft

/-- Which names are listed behind others, one at a time or all at once. -/
theorem contains_listed (us vs : List String) (name : String) :
    (us ++ vs.filter fun name => !us.contains name).contains name =
      (us.contains name || vs.contains name) := by
  rw [List.contains_append]
  rcases hus : us.contains name with _ | _
  · rw [Bool.false_or, Bool.false_or, Bool.eq_iff_iff, List.contains_iff_mem,
      List.contains_iff_mem, List.mem_filter, hus]
    exact and_iff_left rfl
  · rw [Bool.true_or, Bool.true_or]

/-- Where nothing is listed yet, everything is listed. -/
theorem listed_nil (us : List String) :
    ([] ++ us.filter fun name => !([] : List String).contains name) = us :=
  List.filter_eq_self.mpr fun _ _ => rfl

/-- One name more is listed if it is listed neither in front nor behind. -/
theorem listed_one_more (us vs : List String) (name : String) (missing : Bool) :
    (if missing && !(us ++ vs.filter fun name => !us.contains name).contains name then
      (us ++ vs.filter fun name => !us.contains name) ++ [name]
    else us ++ vs.filter fun name => !us.contains name) =
      us ++ (if missing && !vs.contains name then vs ++ [name] else vs).filter
        fun name => !us.contains name := by
  rw [contains_listed]
  cases missing with
  | false => rfl
  | true =>
      rw [Bool.true_and, Bool.true_and]
      rcases hvs : vs.contains name with _ | _
      · rw [Bool.or_false, Bool.not_false, if_pos rfl, List.filter_append]
        -- A name of the frame is filtered out.
        rcases hus : us.contains name with _ | _
        · rw [Bool.not_false, if_pos rfl, List.filter_cons, hus, Bool.not_false, if_pos rfl,
            List.filter_nil, List.append_assoc]
        · rw [Bool.not_true, if_neg Bool.false_ne_true, List.filter_cons, hus, Bool.not_true,
            if_neg Bool.false_ne_true, List.filter_nil, List.append_nil]
      · rw [Bool.or_true, Bool.not_true, if_neg Bool.false_ne_true, if_neg Bool.false_ne_true]

namespace Draft

variable {session : Radix} {known : String → Bool} {f : Frame} {d d' e : Draft}
  {kind : Lexeme.Kind} {t : List Char} {pos : Nat}

/-- Both drafts end in the same piece, or there is nothing alone and nothing but an
    opening bracket behind the frame. -/
theorem Within.last (h : d.Within f d') (hf : f.Opens) :
    (∃ q ps, d.pieces = q :: ps ∧ d'.pieces = q :: (ps ++ f.pieces)) ∨
      (d.pieces = [] ∧ (d'.pieces = [] ∨ ∃ ps, d'.pieces = .opening :: ps)) := by
  have hpieces := h.pieces
  rcases hd : d.pieces with _ | ⟨q, ps⟩
  · rw [hd, List.nil_append] at hpieces
    rw [hpieces]
    refine .inr ⟨rfl, ?_⟩
    rcases hframe : f.pieces with _ | ⟨q, ps⟩
    · exact .inl rfl
    · exact .inr ⟨ps, by rw [hf q (by rw [hframe]; rfl)]⟩
  · rw [hd, List.cons_append] at hpieces
    exact .inl ⟨q, ps, rfl, hpieces⟩

/-- Whether a refused number goes on, and whether an operand has to come, is told by the
    last piece. -/
theorem Within.place_eq (h : d.Within f d') (hf : f.Opens) :
    d'.endsRefused = d.endsRefused ∧ d'.awaitsOperand = d.awaitsOperand := by
  unfold endsRefused awaitsOperand
  rcases h.last hf with ⟨q, ps, hd, hd'⟩ | ⟨hd, hd' | ⟨ps, hd'⟩⟩
  · rw [hd, hd']
    cases q <;> exact ⟨rfl, rfl⟩
  · rw [hd, hd']
    exact ⟨rfl, rfl⟩
  · -- An operand has to come at the start of a text and behind an opening bracket.
    rw [hd, hd']
    exact ⟨rfl, rfl⟩

theorem Within.add (h : d.Within f d') (q : Piece) (zone zone' : Span) :
    (d.add q zone).Within f (d'.add q zone') where
  pieces := congrArg (q :: ·) h.pieces
  depth := h.depth
  names := h.names
  rooted _ := List.cons_ne_nil q d.pieces

/-- A refused digit is glued to the same piece, or to none. -/
theorem Within.addRefused (h : d.Within f d') (hf : f.Opens) (pos' : Nat) :
    (d.addRefused session ⟨kind, t, pos⟩).Within f (d'.addRefused session ⟨kind, t, pos'⟩) := by
  unfold Draft.addRefused
  rcases h.last hf with ⟨q, ps, hd, hd'⟩ | ⟨hd, hd' | ⟨ps, hd'⟩⟩
  · rw [hd, hd']
    cases q with
    | number s | refused s =>
        exact ⟨rfl, h.depth, h.names, fun _ => List.cons_ne_nil _ ps⟩
    | _ => exact h.add _ _ _
  · rw [hd, hd']
    exact h.add _ _ _
  · rw [hd, hd']
    exact h.add _ _ _

/-- A name is listed behind the frame if it is listed alone and not in the frame. -/
theorem Within.addConstant (h : d.Within f d') (pos' : Nat) :
    (d.addConstant known ⟨kind, t, pos⟩).Within f (d'.addConstant known ⟨kind, t, pos'⟩) := by
  refine ⟨congrArg _ h.pieces, h.depth, ?_, fun _ => List.cons_ne_nil _ d.pieces⟩
  simp only [Draft.addConstant]
  rw [h.names]
  exact listed_one_more f.names d.undefinedNames _ _

/-- A bracket that is closed alone is closed behind the frame. -/
theorem Within.close {zone : Span} (h : d.Within f d') (hclose : d.close zone = .ok e)
    (zone' : Span) : ∃ e', d'.close zone' = .ok e' ∧ e.Within f e' := by
  rcases close_eq_ok.mp hclose with ⟨first, outer, hopenings, hempty, hincomplete, rfl⟩
  -- The bracket was opened in the text, so the last piece is one of the text.
  have hrooted := h.rooted (by rw [hopenings]; exact List.cons_ne_nil first outer)
  rcases List.exists_cons_of_ne_nil hrooted with ⟨q, ps, hd⟩
  have hd' : d'.pieces = q :: (ps ++ f.pieces) := by
    rw [h.pieces, hd, List.cons_append]
  have hempty' : d'.endsOpening = false := by
    unfold endsOpening at hempty ⊢
    rw [hd] at hempty
    rw [hd']
    cases q <;> first | rfl | exact hempty
  have hincomplete' : d'.isIncomplete = false := by
    unfold isIncomplete at hincomplete ⊢
    rw [hd] at hincomplete
    rw [hd']
    cases q <;> first | rfl | exact hincomplete
  have hdepth := h.depth
  rw [hopenings, List.length_cons] at hdepth
  rcases hopenings' : d'.openings with _ | ⟨first', outer'⟩
  · rw [hopenings', List.length_nil] at hdepth
    omega
  · rw [hopenings', List.length_cons] at hdepth
    refine ⟨_, close_eq_ok.mpr ⟨first', outer', hopenings', hempty', hincomplete', rfl⟩, ?_⟩
    refine ⟨congrArg _ h.pieces, ?_, h.names, fun _ => List.cons_ne_nil _ d.pieces⟩
    show outer'.length = outer.length + f.depth
    omega

/-- A lexeme by itself becomes the same piece. -/
theorem Within.addLexeme (h : d.Within f d') (hf : f.Opens)
    (hadd : d.addLexeme session known ⟨kind, t, pos⟩ = .ok e) (pos' : Nat) :
    ∃ e', d'.addLexeme session known ⟨kind, t, pos'⟩ = .ok e' ∧ e.Within f e' := by
  unfold Draft.addLexeme at hadd ⊢
  cases kind with
  | separator =>
      rw [← Except.ok.inj hadd]
      exact ⟨d', rfl, h⟩
  | digit | point | exponent | marker =>
      rw [← Except.ok.inj hadd]
      exact ⟨_, rfl, h.addRefused hf pos'⟩
  | operator =>
      simp only [] at hadd ⊢
      rw [(h.place_eq hf).2]
      split at hadd
      · cases hadd
      · rename_i hplace
        rw [← Except.ok.inj hadd]
        exact ⟨_, if_neg hplace, h.add _ _ _⟩
  | opening =>
      rw [← Except.ok.inj hadd]
      refine ⟨_, rfl, congrArg _ h.pieces, ?_, h.names, fun _ => List.cons_ne_nil _ d.pieces⟩
      show d'.openings.length + 1 = d.openings.length + 1 + f.depth
      rw [h.depth, Nat.add_right_comm]
  | closing => exact h.close hadd _
  | function =>
      rw [← Except.ok.inj hadd]
      exact ⟨_, rfl, h.add _ _ _⟩
  | constant =>
      rw [← Except.ok.inj hadd]
      exact ⟨_, rfl, h.addConstant pos'⟩

end Draft

namespace Preparation

open Piece (undefinedIn ends)

variable {session : Radix} {known : String → Bool} {f : Frame} {p q p' : Preparation}
  {kind : Lexeme.Kind} {t text rest : List Char} {pos : Nat} {b : Literal.Builder} {d : Draft}
  {prev prev' : Option Char}

theorem Within.stays_iff (h : p.Within f q) (hf : f.Opens) (pos' : Nat) :
    q.Stays ⟨kind, t, pos'⟩ ↔ p.Stays ⟨kind, t, pos⟩ := by
  unfold Stays
  rw [(h.draft.place_eq hf).1]

/-- The open literal is closed alike. -/
theorem Within.closes {opens : Bool} (h : p.Within f q)
    (hd : p.Closes ⟨kind, t, pos⟩ opens d) (pos' : Nat) :
    ∃ d', q.Closes ⟨kind, t, pos'⟩ opens d' ∧ d.Within f d' := by
  have hfinish : q.builder.finish.1 = p.builder.finish.1 := by rw [h.builder]
  cases hd with
  | nothing hnone => exact ⟨_, .nothing (hfinish.trans hnone), h.draft⟩
  | number literal hsome hdigits =>
      exact ⟨_, .number literal (hfinish.trans hsome) hdigits, h.draft.add _ _ _⟩
  | bare literal hsome hdigits hkind hopens =>
      exact ⟨_, .bare literal (hfinish.trans hsome) hdigits hkind hopens, h.draft.add _ _ _⟩

/-- Every move that is made alone can be made behind a frame. -/
theorem within_moves (h : p.Within f q) (hf : f.Opens)
    (hmove : Moves session known p ⟨kind, t, pos⟩ b d) (pos' : Nat) :
    ∃ d', Moves session known q ⟨kind, t, pos'⟩ b d' ∧ d.Within f d' := by
  -- Where a lexeme starts does not matter to the builder.
  have hgoes : ∀ b : Literal.Builder,
      b.canContinue ⟨kind, t, pos'⟩ = b.canContinue ⟨kind, t, pos⟩ := fun _ => rfl
  have habsorb : ∀ b : Literal.Builder,
      b.absorb ⟨kind, t, pos'⟩ = b.absorb ⟨kind, t, pos⟩ := fun _ => rfl
  have hstays : q.Stays ⟨kind, t, pos'⟩ ↔ p.Stays ⟨kind, t, pos⟩ := h.stays_iff hf pos'
  cases hmove with
  | glued hp =>
      rw [← h.builder]
      exact ⟨_, .glued (hstays.mpr hp), h.draft.addRefused hf pos'⟩
  | taken hp hcontinues =>
      rw [← h.builder] at hcontinues ⊢
      exact ⟨_, .taken (fun hq => hp (hstays.mp hq)) hcontinues, h.draft⟩
  | opened d hp hcontinues hnext hd =>
      rw [← h.builder] at hcontinues hnext ⊢
      rcases h.closes hd pos' with ⟨d', hd', hwithin⟩
      exact ⟨d', .opened d' (fun hq => hp (hstays.mp hq)) hcontinues hnext hd', hwithin⟩
  | added d e hp hcontinues hnext hd hadd =>
      rw [← h.builder] at hcontinues hnext ⊢
      rcases h.closes hd pos' with ⟨d', hd', hwithin⟩
      rcases hwithin.addLexeme hf hadd pos' with ⟨e', hadd', hwithin'⟩
      exact ⟨e', .added d' e' (fun hq => hp (hstays.mp hq)) hcontinues hnext hd' hadd', hwithin'⟩

/-- A text is walked over behind a frame as it is alone. -/
theorem reach_within (h : p.Within f q) (hf : f.Opens) (hrest : Lexeme.Stops rest)
    (hopens : Lexeme.opensWord prev' = Lexeme.opensWord prev)
    (hends : Lexeme.endsMantissa prev' = Lexeme.endsMantissa prev)
    (hwalk : walk session known prev pos text p = .ok p') :
    Reach session known prev' text rest q (Within f p') := by
  -- The induction is on the text left over, of which a lexeme takes a character at least.
  generalize hlen : text.length = len
  induction len using Nat.strongRecOn generalizing prev prev' pos text p q with
  | ind len ih =>
      cases text with
      | nil =>
          rw [walk_nil] at hwalk
          rw [← Except.ok.inj hwalk]
          exact .refl h
      | cons c cs =>
          rcases walk_cons_ok hwalk with ⟨kind, n, p₁, hrec, hstep, hwalk'⟩
          have hn : (cs.take n).length = n := by
            rw [List.length_take, Nat.min_eq_left (Lexeme.length_of_recognise hrec)]
          have hsplit : c :: cs = (c :: cs.take n) ++ cs.drop n := by
            rw [List.cons_append, List.take_append_drop]
          have hone : Reach session known prev' (c :: cs.take n) (cs.drop n ++ rest) q
              (Within f p₁) := by
            have hrec' : Lexeme.recognise prev' q.builder.isHex c
                (cs.take n ++ (cs.drop n ++ rest)) = some (kind, (cs.take n).length) := by
              rw [← List.append_assoc, List.take_append_drop, Lexeme.recognise_append hrest,
                Lexeme.recognise_congr hopens hends, h.builder, hn]
              exact hrec
            refine reach_of_moves hrec' (fun pos' => ?_)
            rcases within_moves h hf (moves_of_step hstep) pos' with ⟨d', hmove, hwithin⟩
            exact ⟨_, d', hmove, fun r hb hd => ⟨hb, hd ▸ hwithin⟩⟩
          rw [hsplit]
          refine hone.trans (fun r hr => ?_)
          refine ih (cs.drop n).length ?_ hr ?_ ?_ hwalk' rfl
          · rw [← hlen, List.length_cons, List.length_drop]
            omega
          · rw [List.getLast?_cons, Option.some_or]
          · rw [List.getLast?_cons, Option.some_or]

theorem shown_append (b : Literal.Builder) (ps qs : List Piece) :
    b.shown (ps ++ qs) = b.shown ps ++ qs := by
  unfold Literal.Builder.shown
  rcases b.finish.1 with _ | literal <;> rfl

theorem within_start {us : List String} {ps : List Piece} {n : Nat}
    (hq : q.Holds (.new session) ps n us) : (start session).Within ⟨ps, n, us⟩ q where
  builder := hq.builder
  draft := by
    refine ⟨hq.pieces, ?_, ?_, fun h => absurd rfl h⟩
    · rw [hq.depth]
      exact (Nat.zero_add n).symm
    · rw [hq.names]
      exact (List.append_nil us).symm

/-- What a walk holds behind a frame. -/
theorem Within.holds (h : p.Within f q) :
    q.Holds p.builder (p.draft.pieces ++ f.pieces) (p.draft.openings.length + f.depth)
      (f.names ++ p.draft.undefinedNames.filter fun name => !f.names.contains name) :=
  ⟨h.builder, h.draft.pieces, h.draft.depth, h.draft.names⟩

/-- A text that is prepared alone, and not as nothing, is read as a group. -/
theorem reach_group {ps : List Piece} {n : Nat} {us : List String}
    (hp : p.Holds (.new session) ps n us) (h : draftOf session known text = .ok d)
    (hne : d.pieces ≠ []) :
    Reach session known prev (['('] ++ (text ++ [')'])) rest p
      (Holds (.new session) (.closing :: (d.pieces ++ .opening :: ps)) n
        (us ++ d.undefinedNames.filter fun name => !us.contains name)) := by
  rcases good_of_draftOf h with ⟨p₁, last, hwalk, hfinish, hgood⟩
  rcases finish_ok hfinish with ⟨hlast, hopenings, hincomplete⟩
  rcases closeLast_ok hlast with ⟨hpieces, hnames, hopened, hdigits⟩
  have hstops : Lexeme.Stops ([')'] ++ rest) := by
    intro e he
    rw [← Option.some.inj he]
    decide
  refine (reach_opening hp (Literal.Builder.digits_of_new session)).trans (fun q hq => ?_)
  have hopens : Frame.Opens ⟨.opening :: ps, n + 1, us⟩ := fun r hr => (Option.some.inj hr).symm
  -- The bracket in front allows whatever may stand at the start of a text.
  have hbody : Reach session known (some '(') text ([')'] ++ rest) q
      (Within ⟨.opening :: ps, n + 1, us⟩ p₁) :=
    reach_within (within_start hq) hopens hstops (by decide) (by decide) hwalk
  refine hbody.trans (fun r hr => ?_)
  have hshown : p₁.builder.shown (p₁.draft.pieces ++ .opening :: ps) =
      d.pieces ++ .opening :: ps := by
    rw [shown_append, hpieces, shown]
  have hdepth : p₁.draft.openings.length + (n + 1) = n + 1 := by
    rw [← hopened, hopenings, List.length_nil, Nat.zero_add]
  have hbehind : ends (p₁.builder.shown (p₁.draft.pieces ++ .opening :: ps)) = true := by
    rcases List.exists_cons_of_ne_nil hne with ⟨x, xs, hd⟩
    have hends := Piece.ends_of_closed (row_of_draftOf h).1 hincomplete hne
    rw [hd] at hends
    rw [hshown, hd]
    exact hends
  refine (reach_closing hr.holds hdigits hdepth hbehind).mono (fun v hv => ?_)
  rw [finish_new hgood, hshown, ← hnames] at hv
  exact hv

end Preparation

end ExactCalc
