import ExactCalc.Proofs.Cancellation
import ExactCalc.Proofs.Reaction

/-!
# Live Calculations

Of all calculations of text being edited, only the latest goes on.

A session keeps two things for this, the sequence of the last calculation of edited
text and the table of the tokens. Everybody changes them: other calculations of the
same sequence take tokens and give them back, sequences are called off by hand, and a
token that has been called off is replaced by a fresh one. What is called off when the
next version of the text comes is the chain of a sequence, though, and not a
calculation. That this reaches the calculation that is meant takes an invariant about
the tokens: a calculation under way holds the one that its chain has, or one that has
been called off already, and the chain lasts as long as somebody counts on it. `Held`
says so for any calculations under way, however they were started.

The moves of `Stage` are the moments at which something can happen. Reactions of the
session, calls from outside and ends of calculations come in any order.

## Main definitions

* `Live.Holder`, `Live.Stage`, `Live.Move`: The calculations under way, and what can
  happen next.
* `Live.Held`: What the table has to do with the calculations under way.
* `Live.Superseded`: Only the latest live calculation is not called off.
* `Live.Cleared`: None of them goes on.

## Theorems

* `held_take`, `held_erase`, `held_cancel`: What is kept by each call to the table.
* `cleared_supersede`, `superseded_blank`, `superseded_newcomer`: Who is called off, and who
  goes on.
* `superseded_calculateLive`: A live calculation takes the place of the one before it.
* `superseded_move`, `superseded_foldl`: What is kept by one move and by several.
* `live_superseded`: At most one live calculation is not called off, at any moment.
-/

namespace ExactCalc

/-- Whether an event has edited text calculated. -/
def Session.calculatesLive (s : Session) (d : Delivery) : Bool :=
  match d.event with
  | .editorChanged c => s.isLive && c.old.text != c.new.text
  | _ => false

namespace Live

open Cancellations (Taken taken_take chain?_giveBack giveBack_keeps chain?_cancel
  isCancelled_cancel)

/-- A calculation under way, which holds a token. -/
structure Holder where
  sequence : Nat
  token : Nat
  /-- Whether it was started because text was edited. -/
  live : Bool
  deriving DecidableEq, Repr

/-- A session, the calculations that hold its tokens, and the sequences of the events
    that have had edited text calculated, the latest last. -/
structure Stage where
  session : Session
  holders : List Holder
  edits : List Nat

/-- Something that happens to a session. -/
inductive Move where
  /-- The session is served with an event when `next` is the next number of the bus. -/
  | deliver (next : Nat) (d : Delivery)
  /-- A calculation is asked for in a given sequence. -/
  | submit (sequence : Nat) (op : Operation) (text : String)
  /-- A sequence is called off. -/
  | cancel (sequence : Nat)
  /-- A calculation comes to its end. -/
  | complete (h : Holder)
  /-- Everything about the session changes that has nothing to do with tokens: the
      preferences, whether text is calculated as it is edited, the jobs that are left. -/
  | elsewhere (s : Session)

/-- The sequence of an event that tells of edited text, whether or not that is
    calculated. -/
def Move.edited? : Move → Option Nat
  | .deliver _ d =>
    match d.event with
    | .editorChanged _ => some d.stamp.sequence
    | _ => none
  | .submit _ _ _ | .cancel _ | .complete _ | .elsewhere _ => none

/-- The calculations that a session has queued behind what was queued before. -/
def started (before after : Session) (live : Bool) : List Holder :=
  (after.jobs.drop before.jobs.length).filterMap fun
    | .calculation r token => some ⟨r.sequence, token, live⟩
    | .conversion _ _ => none

namespace Stage

/-- Nothing has happened yet. -/
def start (s : Session) : Stage :=
  ⟨{ s with cancellations := .empty, liveSequence := none }, [], []⟩

/-- A change of the session, which may start calculations. -/
def change (t : Stage) (s : Session) (live : Bool) : Stage :=
  ⟨s, t.holders ++ started t.session s live, t.edits⟩

/-- What comes of a move. -/
def move (t : Stage) : Move → Stage
  | .deliver next d =>
    let live := t.session.calculatesLive d
    let t' := t.change (t.session.react next d).1 live
    { t' with edits := if live then t.edits ++ [d.stamp.sequence] else t.edits }
  | .submit sequence op text => t.change (t.session.submitNumbered sequence op text).1 false
  | .cancel sequence => t.change (t.session.cancel sequence).2.1 false
  | .complete h =>
    if h ∈ t.holders then
      ⟨{ t.session with cancellations := t.session.cancellations.giveBack h.sequence },
        t.holders.erase h, t.edits⟩
    else t
  | .elsewhere s =>
    { t with session := { s with
      cancellations := t.session.cancellations
      liveSequence := t.session.liveSequence } }

end Stage

/-- What the table has to do with the calculations under way, in whatever way they were
    started. -/
structure Held (c : Cancellations) (holders : List Holder) : Prop where
  /-- There is a chain for the calculations of a sequence, which counts them. -/
  counted : ∀ sequence, (c.chain? sequence).map (·.running) =
    if holders.countP (·.sequence == sequence) = 0 then none
    else some (holders.countP (·.sequence == sequence))
  /-- Whoever is under way holds the token of the chain, or one that is called off. -/
  held : ∀ h ∈ holders, ∀ ch, c.chain? h.sequence = some ch →
    h.token = ch.token ∨ c.isCancelled h.token = true

section Table

variable {c : Cancellations} {holders : List Holder} {sequence : Nat}

theorem Held.exists_chain (h : Held c holders) {x : Holder} (hx : x ∈ holders) :
    ∃ ch, c.chain? x.sequence = some ch := by
  have hcounted := h.counted x.sequence
  have hpos : 0 < holders.countP (·.sequence == x.sequence) :=
    List.countP_pos_iff.mpr ⟨x, hx, beq_self_eq_true _⟩
  rw [if_neg (Nat.ne_of_gt hpos), Option.map_eq_some_iff] at hcounted
  rcases hcounted with ⟨ch, hch, -⟩
  exact ⟨ch, hch⟩

/-- Who takes a token holds that of the chain. Others may be left with another one, but
    then theirs has been called off. -/
theorem held_take (h : Held c holders) {token : Nat} {c' : Cancellations}
    (htaken : Taken c sequence token c') (live : Bool) :
    Held c' (holders ++ [⟨sequence, token, live⟩]) := by
  constructor
  · intro s
    rw [List.countP_append, List.countP_singleton]
    by_cases hs : s = sequence
    · rw [hs, htaken.counted, h.counted sequence, beq_self_eq_true, if_pos rfl,
        if_neg (Nat.succ_ne_zero _)]
      split
      · next hnone => rw [hnone]; rfl
      · rfl
    · rw [htaken.others s hs, h.counted s, beq_eq_false_iff_ne.mpr (Ne.symm hs),
        if_neg Bool.false_ne_true, Nat.add_zero]
  · intro x hx ch hch
    rcases List.mem_append.mp hx with hx | hx
    · by_cases hs : x.sequence = sequence
      · rw [hs, htaken.counted, Option.some.injEq] at hch
        rw [← hch]
        rcases h.exists_chain hx with ⟨old, hold⟩
        exact htaken.passes_on (hs ▸ hold) (h.held x hx old hold)
      · rw [htaken.others _ hs] at hch
        rw [htaken.isCancelled_eq]
        exact h.held x hx ch hch
    · rw [List.mem_singleton.mp hx, htaken.counted, Option.some.injEq] at hch
      rw [List.mem_singleton.mp hx, ← hch]
      exact .inl rfl

/-- Who gives its token back leaves the chain to the others of its sequence. -/
theorem held_erase (h : Held c holders) {x : Holder} (hx : x ∈ holders) :
    Held (c.giveBack x.sequence) (holders.erase x) := by
  rcases giveBack_keeps c x.sequence with ⟨-, hoff⟩
  -- Giving back turns no flag, and of this sequence alone there is one holder less.
  have hcancelled : ∀ t, (c.giveBack x.sequence).isCancelled t = c.isCancelled t := fun t => by
    rw [Cancellations.isCancelled, hoff, Cancellations.isCancelled]
  have hcount : ∀ s, holders.countP (·.sequence == s) =
      (holders.erase x).countP (·.sequence == s) + if x.sequence == s then 1 else 0 := fun s => by
    rw [(List.perm_cons_erase hx).countP_eq, List.countP_cons]
  rcases h.exists_chain hx with ⟨ch, hch⟩
  have hrunning := h.counted x.sequence
  rw [hch, hcount, beq_self_eq_true, if_pos rfl, if_neg (Nat.succ_ne_zero _), Option.map_some,
    Option.some.injEq] at hrunning
  constructor
  · intro s
    rw [chain?_giveBack]
    by_cases hs : s = x.sequence
    · rw [if_pos hs, hs, hch, Option.bind_some]
      by_cases hlast : ch.running ≤ 1
      · rw [if_pos hlast, if_pos (by omega)]
        rfl
      · rw [if_neg hlast, if_neg (by omega), Option.map_some, hrunning, Nat.add_sub_cancel]
    · have hsame := hcount s
      rw [beq_eq_false_iff_ne.mpr (Ne.symm hs), if_neg Bool.false_ne_true, Nat.add_zero] at hsame
      rw [if_neg hs, h.counted s, hsame]
  · intro y hy ch' hch'
    have hmem := List.mem_of_mem_erase hy
    rw [hcancelled]
    rw [chain?_giveBack] at hch'
    by_cases hs : y.sequence = x.sequence
    · rw [if_pos hs, hch, Option.bind_some] at hch'
      by_cases hlast : ch.running ≤ 1
      · rw [if_pos hlast] at hch'
        cases hch'
      · rw [if_neg hlast, Option.some.injEq] at hch'
        rw [← hch']
        exact h.held y hmem ch (hs ▸ hch)
    · rw [if_neg hs] at hch'
      exact h.held y hmem ch' hch'

/-- Calling a sequence off reaches everyone of it, and takes no token back. -/
theorem held_cancel (h : Held c holders) (sequence : Nat) :
    Held (c.cancel sequence).2 holders ∧
      (∀ token, c.isCancelled token = true → (c.cancel sequence).2.isCancelled token = true) ∧
      ∀ x ∈ holders, x.sequence = sequence →
        (c.cancel sequence).2.isCancelled x.token = true := by
  have hmore : ∀ token, c.isCancelled token = true →
      (c.cancel sequence).2.isCancelled token = true := fun token htoken =>
    isCancelled_cancel.mpr (.inr htoken)
  refine ⟨⟨fun s => ?_, fun x hx ch hch => ?_⟩, hmore, fun x hx hs => ?_⟩
  · rw [(chain?_cancel c sequence s).1]
    exact h.counted s
  · rw [(chain?_cancel c sequence x.sequence).1] at hch
    exact (h.held x hx ch hch).imp id (hmore x.token)
  · rcases h.exists_chain hx with ⟨ch, hch⟩
    rcases h.held x hx ch hch with htoken | hoff
    · exact isCancelled_cancel.mpr (.inl ⟨ch, hs ▸ hch, htoken⟩)
    · exact hmore x.token hoff

end Table

section Sessions

variable (s : Session) {sequence : Nat}

/-- A session that has been asked for a calculation in a sequence: the text was blank, or
    the calculation has taken a token and has been queued. -/
structure Submits (sequence : Nat) (s s' : Session) : Prop where
  liveSequence : s'.liveSequence = s.liveSequence
  queued : (s'.cancellations = s.cancellations ∧ s'.jobs = s.jobs) ∨
    ∃ r token, r.sequence = sequence ∧ s'.jobs = s.jobs ++ [.calculation r token] ∧
      Taken s.cancellations sequence token s'.cancellations

theorem submits_self (sequence : Nat) : Submits sequence s s := ⟨rfl, .inl ⟨rfl, rfl⟩⟩

theorem submits_submitNumbered (sequence : Nat) (op : Operation) (text : String) :
    Submits sequence s (s.submitNumbered sequence op text).1 := by
  by_cases hblank : Text.trimmed text = ""
  · rw [s.submitNumbered_blank sequence op hblank]
    exact submits_self s sequence
  · rw [s.submitNumbered_full sequence op hblank]
    exact ⟨rfl, .inr ⟨_, _, rfl, rfl, taken_take s.cancellations sequence⟩⟩

theorem submits_calculateEditor (next : Nat) (sequence : Option Nat) (op : Operation) :
    Submits (sequence.getD next) s (s.calculateEditor next sequence op).1 := by
  have hsubmitted := submits_submitNumbered s (sequence.getD next) op s.screen.editor.text
  unfold Session.calculateEditor
  generalize s.submitNumbered (sequence.getD next) op s.screen.editor.text = change at hsubmitted
  exact hsubmitted

/-- Apart from live calculations, the session asks for one calculation at most. -/
theorem submits_react (next : Nat) {d : Delivery} (h : s.calculatesLive d = false) :
    ∃ sequence, Submits sequence s (s.react next d).1 := by
  have hself : ∃ sequence, Submits sequence s (s, ([] : List Session.Action)).1 :=
    ⟨next, submits_self s next⟩
  have hedit : ∀ sequence, ∃ q, Submits q s (s.calculateEditor next sequence .numeric).1 :=
    fun sequence => ⟨_, submits_calculateEditor s next sequence .numeric⟩
  have hconstant : ∀ b : Bool, ∃ q,
      Submits q s (if b then s.calculateEditor next none .numeric else (s, [])).1 := fun b => by
    cases b with
    | false => exact hself
    | true =>
        rw [if_pos rfl]
        exact hedit none
  rcases d with ⟨stamp, e⟩
  cases e with
  | editorChanged c =>
      -- An edit is what a live calculation follows, and `h` excludes it.
      have hquiet : (s.isLive && c.old.text != c.new.text) = false := h
      simp only [Session.react, hquiet, Bool.false_eq_true, if_false]
      exact hself
  | displayChanged c =>
      unfold Session.react
      simp only
      split
      · unfold Session.keepAnswer
        simp only
        split
        · exact hself
        · exact ⟨next, rfl, .inl ⟨rfl, rfl⟩⟩
      · exact hself
  | constantChanged | constantAdded | constantRemoved =>
      simp only [Session.react]
      exact hconstant _
  | functionAdded | functionChanged | functionRemoved =>
      simp only [Session.react]
      exact hedit none
  | preferencesChanged =>
      simp only [Session.react]
      exact hedit _
  | _ => exact hself

theorem react_live (next : Nat) {d : Delivery} (h : s.calculatesLive d = true) :
    (∃ c, d.event = .editorChanged c) ∧
      ∃ text, s.react next d = s.calculateLive d.stamp.sequence text := by
  rcases d with ⟨stamp, e⟩
  cases e with
  | editorChanged c =>
      have hlive : (s.isLive && c.old.text != c.new.text) = true := h
      refine ⟨⟨c, rfl⟩, c.new.text, ?_⟩
      simp only [Session.react, hlive, if_true]
  | _ => exact absurd h Bool.false_ne_true

end Sessions

section Stages

variable {t : Stage} {s' : Session} {sequence : Nat}

/-- Only the latest live calculation is not called off. -/
structure Superseded (t : Stage) : Prop where
  held : Held t.session.cancellations t.holders
  /-- The session knows the sequence of the last live calculation. -/
  last : t.session.liveSequence = t.edits.getLast?
  edited : ∀ h ∈ t.holders, h.live = true → h.sequence ∈ t.edits
  distinct : ((t.holders.filter (·.live)).map (·.sequence)).Nodup
  current : ∀ h ∈ t.holders, h.live = true →
    t.session.cancellations.isCancelled h.token = false → t.edits.getLast? = some h.sequence

theorem started_of_queued {s : Session} {r : Request} {token : Nat}
    (h : s'.jobs = s.jobs ++ [.calculation r token]) (live : Bool) :
    started s s' live = [⟨r.sequence, token, live⟩] := by
  rw [started, h, List.drop_left]
  rfl

theorem started_of_same {s : Session} (h : s'.jobs = s.jobs) (live : Bool) :
    started s s' live = [] := by
  rw [started, h, List.drop_length]
  rfl

/-- A calculation that nothing was edited for takes nobody's place. -/
theorem superseded_submits (h : Superseded t) (hsubmits : Submits sequence t.session s') :
    Superseded (t.change s' false) := by
  rcases h with ⟨hheld, hlast, hedited, hdistinct, hcurrent⟩
  rcases hsubmits with ⟨hlive, ⟨hsame, hjobs⟩ | ⟨r, token, hr, hjobs, htaken⟩⟩
  · have hchange : t.change s' false = ⟨s', t.holders, t.edits⟩ := by
      rw [Stage.change, started_of_same hjobs, List.append_nil]
    rw [hchange]
    exact ⟨hsame ▸ hheld, hlive.trans hlast, hedited, hdistinct, hsame ▸ hcurrent⟩
  · have hchange : t.change s' false =
        ⟨s', t.holders ++ [⟨sequence, token, false⟩], t.edits⟩ := by
      rw [Stage.change, started_of_queued hjobs, hr]
    -- The new one is not live, so the live ones are those there were.
    have hold : ∀ x ∈ t.holders ++ [⟨sequence, token, false⟩], x.live = true → x ∈ t.holders :=
      fun x hx hlive => (List.mem_append.mp hx).elim id fun hx => by
        rw [List.mem_singleton.mp hx] at hlive
        exact absurd hlive Bool.false_ne_true
    rw [hchange]
    refine ⟨held_take hheld htaken false, hlive.trans hlast,
      fun x hx hx' => hedited x (hold x hx hx') hx', ?_, fun x hx hx' hfree => ?_⟩
    · rw [List.filter_append, List.filter_singleton, cond_false, List.append_nil]
      exact hdistinct
    · rw [htaken.isCancelled_eq] at hfree
      exact hcurrent x (hold x hx hx') hx' hfree

/-- All live calculations that are still under way have been called off. -/
structure Cleared (c : Cancellations) (holders : List Holder) : Prop where
  held : Held c holders
  off : ∀ x ∈ holders, x.live = true → c.isCancelled x.token = true

/-- The sequence of the last live calculation is called off, and the earlier ones had
    been called off before. -/
theorem cleared_supersede (h : Superseded t) (hnew : sequence ∉ t.edits) :
    Cleared (t.session.supersede sequence).1.cancellations t.holders := by
  rcases h with ⟨hheld, hlast, hedited, -, hcurrent⟩
  unfold Session.supersede
  rcases hsession : t.session.liveSequence with _ | last
  · refine ⟨hheld, fun x hx hx' => ?_⟩
    rw [hsession] at hlast
    rw [List.getLast?_eq_none_iff.mp hlast.symm] at hedited
    exact absurd (hedited x hx hx') List.not_mem_nil
  · rw [hsession] at hlast
    have hne : last ≠ sequence := fun heq => hnew (heq ▸ List.mem_of_getLast? hlast.symm)
    simp only [hne, if_false]
    rcases held_cancel hheld last with ⟨hkept, hmore, hreached⟩
    refine ⟨hkept, fun x hx hx' => ?_⟩
    by_cases hfree : t.session.cancellations.isCancelled x.token = true
    · exact hmore x.token hfree
    · have hsequence := hcurrent x hx hx' (Bool.not_eq_true _ ▸ hfree)
      rw [← hlast, Option.some.injEq] at hsequence
      exact hreached x hx hsequence.symm

/-- Nothing is calculated of a blank text, and none of the live calculations goes on. -/
theorem superseded_blank (h : Superseded t) (hcleared : Cleared s'.cancellations t.holders)
    (hlive : s'.liveSequence = some sequence) :
    Superseded ⟨s', t.holders, t.edits ++ [sequence]⟩ where
  held := hcleared.held
  last := hlive.trans List.getLast?_concat.symm
  edited x hx hx' := List.mem_append_left _ (h.edited x hx hx')
  distinct := h.distinct
  current x hx hx' hfree := absurd (hcleared.off x hx hx') (Bool.not_eq_true _ ▸ hfree)

/-- The newcomer is the only live calculation that goes on. -/
theorem superseded_newcomer (h : Superseded t) (hnew : sequence ∉ t.edits) {c : Cancellations}
    (hcleared : Cleared c t.holders) {token : Nat}
    (htaken : Taken c sequence token s'.cancellations) (hlive : s'.liveSequence = some sequence) :
    Superseded ⟨s', t.holders ++ [⟨sequence, token, true⟩], t.edits ++ [sequence]⟩ where
  held := held_take hcleared.held htaken true
  last := hlive.trans List.getLast?_concat.symm
  edited x hx hx' := by
    rcases List.mem_append.mp hx with hx | hx
    · exact List.mem_append_left _ (h.edited x hx hx')
    · rw [List.mem_singleton.mp hx]
      exact List.mem_append_right _ (List.mem_singleton_self _)
  distinct := by
    rw [List.filter_append, List.filter_singleton, cond_true, List.map_append, List.map_singleton,
      ← List.concat_eq_append]
    refine h.distinct.concat fun hmem => ?_
    rcases List.mem_map.mp hmem with ⟨x, hx, hsequence⟩
    rcases List.mem_filter.mp hx with ⟨hx, hx'⟩
    have hedit : x.sequence ∈ t.edits := h.edited x hx hx'
    rw [show x.sequence = sequence from hsequence] at hedit
    exact hnew hedit
  current x hx hx' hfree := by
    rcases List.mem_append.mp hx with hx | hx
    · rw [htaken.isCancelled_eq] at hfree
      exact absurd (hcleared.off x hx hx') (Bool.not_eq_true _ ▸ hfree)
    · rw [List.mem_singleton.mp hx]
      exact List.getLast?_concat

/-- A live calculation takes the place of the one before it, which is called off with
    its sequence if it is still under way. -/
theorem superseded_calculateLive (h : Superseded t) (text : String)
    (hnew : sequence ∉ t.edits) :
    Superseded { t.change (t.session.calculateLive sequence text).1 true with
      edits := t.edits ++ [sequence] } := by
  have hcleared := cleared_supersede h hnew
  have hjobs := (t.session.supersede_spares sequence).1
  have hsubmits := submits_submitNumbered { (t.session.supersede sequence).1 with
    liveSequence := some sequence } sequence .numeric text
  rw [Session.calculateLive_eq]
  simp only
  generalize (Session.submitNumbered { (t.session.supersede sequence).1 with
    liveSequence := some sequence } sequence .numeric text).1 = after at hsubmits
  rcases hsubmits with ⟨hlive, ⟨hsame, hqueue⟩ | ⟨r, token, hr, hqueue, htaken⟩⟩
  · have hstage : t.change after true = ⟨after, t.holders, t.edits⟩ := by
      rw [Stage.change, started_of_same (hqueue.trans hjobs), List.append_nil]
    rw [hstage]
    exact superseded_blank (t := t) h (hsame ▸ hcleared) hlive
  · have hstage : t.change after true =
        ⟨after, t.holders ++ [⟨sequence, token, true⟩], t.edits⟩ := by
      rw [Stage.change, started_of_queued (hqueue.trans (congrArg (· ++ _) hjobs)), hr]
    rw [hstage]
    exact superseded_newcomer (t := t) h hnew hcleared htaken hlive

/-- Every move keeps what is said of live calculations, if no two events that tell of
    edited text share their sequence. -/
theorem superseded_move (h : Superseded t) (m : Move)
    (hnew : ∀ sequence, m.edited? = some sequence → sequence ∉ t.edits) :
    Superseded (t.move m) := by
  cases m with
  | deliver next d =>
      cases hd : t.session.calculatesLive d with
      | false =>
          -- Whatever is started here is no live calculation.
          rcases submits_react t.session next hd with ⟨sequence, hsubmits⟩
          have hmove : t.move (.deliver next d) = t.change (t.session.react next d).1 false := by
            simp only [Stage.move, hd, Bool.false_eq_true, if_false]
            rfl
          rw [hmove]
          exact superseded_submits h hsubmits
      | true =>
          rcases react_live t.session next hd with ⟨⟨c, hc⟩, text, hreact⟩
          have hmove : t.move (.deliver next d) =
              { t.change (t.session.calculateLive d.stamp.sequence text).1 true with
                edits := t.edits ++ [d.stamp.sequence] } := by
            simp only [Stage.move, hd, if_true, hreact]
          rw [hmove]
          exact superseded_calculateLive h text (hnew _ (by simp only [Move.edited?, hc]))
  | submit sequence op text =>
      exact superseded_submits h (submits_submitNumbered t.session sequence op text)
  | cancel sequence =>
      rcases h with ⟨hheld, hlast, hedited, hdistinct, hcurrent⟩
      rcases held_cancel hheld sequence with ⟨hkept, hmore, -⟩
      have hmove : t.move (.cancel sequence) =
          ⟨(t.session.cancel sequence).2.1, t.holders, t.edits⟩ := by
        have hjobs : (t.session.cancel sequence).2.1.jobs = t.session.jobs := rfl
        rw [Stage.move, Stage.change, started_of_same hjobs, List.append_nil]
      rw [hmove]
      -- A cancellation turns flags on only: whoever runs free now ran free before.
      refine ⟨hkept, hlast, hedited, hdistinct, fun x hx hx' hfree => hcurrent x hx hx' ?_⟩
      rw [← Bool.not_eq_true]
      exact fun hoff => absurd (hmore x.token hoff) (Bool.not_eq_true _ ▸ hfree)
  | complete x =>
      rw [Stage.move]
      split
      · next hx =>
          rcases h with ⟨hheld, hlast, hedited, hdistinct, hcurrent⟩
          refine ⟨held_erase hheld hx, hlast,
            fun y hy => hedited y (List.mem_of_mem_erase hy),
            hdistinct.sublist ((List.erase_sublist.filter _).map _),
            fun y hy hy' hfree => hcurrent y (List.mem_of_mem_erase hy) hy' ?_⟩
          rw [Cancellations.isCancelled,
            (giveBack_keeps t.session.cancellations x.sequence).2] at hfree
          exact hfree
      · exact h
  | elsewhere s =>
      rcases h with ⟨hheld, hlast, hedited, hdistinct, hcurrent⟩
      exact ⟨hheld, hlast, hedited, hdistinct, hcurrent⟩

theorem edits_move (t : Stage) (m : Move) {sequence : Nat} (h : sequence ∈ (t.move m).edits) :
    sequence ∈ t.edits ∨ m.edited? = some sequence := by
  cases m with
  | deliver next d =>
      simp only [Stage.move] at h
      split at h
      · next hd =>
          rcases react_live t.session next hd with ⟨⟨c, hc⟩, -⟩
          refine (List.mem_append.mp h).imp id fun h => ?_
          simp only [Move.edited?, hc, List.mem_singleton.mp h]
      · exact .inl h
  | complete x =>
      rw [Stage.move] at h
      split at h <;> exact .inl h
  | submit | cancel | elsewhere =>
      simp only [Stage.move, Stage.change] at h
      exact .inl h

theorem superseded_foldl (moves : List Move) (h : Superseded t)
    (hdistinct : (moves.filterMap Move.edited?).Nodup)
    (hnew : ∀ sequence ∈ moves.filterMap Move.edited?, sequence ∉ t.edits) :
    Superseded (moves.foldl Stage.move t) := by
  induction moves generalizing t with
  | nil => exact h
  | cons m moves ih =>
      rcases hm : m.edited? with _ | q
      · rw [List.filterMap_cons_none hm] at hdistinct hnew
        refine ih (superseded_move h m fun sequence hsequence => ?_) hdistinct
          fun sequence hsequence hmem => ?_
        · rw [hm] at hsequence
          cases hsequence
        · rcases edits_move t m hmem with hmem | hedit
          · exact hnew sequence hsequence hmem
          · rw [hm] at hedit
            cases hedit
      · rw [List.filterMap_cons_some hm] at hdistinct hnew
        rcases List.nodup_cons.mp hdistinct with ⟨hq, hrest⟩
        rcases List.forall_mem_cons.mp hnew with ⟨hqnew, hrestNew⟩
        refine ih (superseded_move h m fun sequence hsequence => ?_) hrest
          fun sequence hsequence hmem => ?_
        · rw [hm, Option.some.injEq] at hsequence
          exact hsequence ▸ hqnew
        · rcases edits_move t m hmem with hmem | hedit
          · exact hrestNew sequence hsequence hmem
          · rw [hm, Option.some.injEq] at hedit
            exact hq (hedit ▸ hsequence)

theorem superseded_start (s : Session) : Superseded (Stage.start s) where
  held := ⟨fun _ => rfl, fun _ hx => absurd hx List.not_mem_nil⟩
  last := rfl
  edited _ hx := absurd hx List.not_mem_nil
  distinct := List.nodup_nil
  current _ hx := absurd hx List.not_mem_nil

end Stages

/-- At any moment at most one live calculation under way is not called off, and it is the
    one of the latest event that had edited text calculated. This is so whatever events
    are delivered, whichever calculations are asked for in whichever sequences, come to
    their ends and are called off, and whenever calculating text as it is edited is
    switched on or off, provided no two events that tell of edited text are of the same
    sequence. -/
theorem live_superseded (s : Session) (moves : List Move)
    (h : (moves.filterMap Move.edited?).Nodup) :
    let t := moves.foldl Stage.move (Stage.start s)
    (t.holders.filter fun x =>
      x.live && !t.session.cancellations.isCancelled x.token).length ≤ 1 ∧
    ∀ x ∈ t.holders, x.live = true → t.session.cancellations.isCancelled x.token = false →
      t.edits.getLast? = some x.sequence := by
  intro t
  rcases superseded_foldl moves (superseded_start s) h fun _ _ => List.not_mem_nil with
    ⟨-, -, -, hdistinct, hcurrent⟩
  refine ⟨?_, hcurrent⟩
  generalize hgoing : (t.holders.filter fun x =>
    x.live && !t.session.cancellations.isCancelled x.token) = going
  -- All that go on are of one sequence, and no two live ones are of the same.
  have hone : ∀ x ∈ going, ∀ y ∈ going, x.sequence = y.sequence := fun x hx y hy => by
    have hlatest : ∀ z ∈ going, t.edits.getLast? = some z.sequence := fun z hz => by
      rw [← hgoing, List.mem_filter, Bool.and_eq_true, Bool.not_eq_true'] at hz
      exact hcurrent z hz.1 hz.2.1 hz.2.2
    exact Option.some.inj ((hlatest x hx).symm.trans (hlatest y hy))
  have hnodup : (going.map (·.sequence)).Nodup := by
    refine hdistinct.sublist (List.Sublist.map _ ?_)
    have hboth := List.filter_sublist (p := fun x => !t.session.cancellations.isCancelled x.token)
      (l := t.holders.filter (·.live))
    rw [List.filter_filter] at hboth
    rw [← hgoing]
    simpa only [Bool.and_comm] using hboth
  rcases going with _ | ⟨x, _ | ⟨y, rest⟩⟩
  · exact Nat.zero_le 1
  · exact Nat.le_refl 1
  · rw [List.map_cons, List.map_cons, List.nodup_cons] at hnodup
    refine absurd ?_ hnodup.1
    rw [hone x List.mem_cons_self y (List.mem_cons_of_mem x List.mem_cons_self)]
    exact List.mem_cons_self

/-- The text of the editor changes. -/
def editing (sequence : Nat) (old new : String) : Move :=
  .deliver (sequence + 1) ⟨⟨sequence, sequence⟩, .editorChanged ⟨.ofText old, .ofText new⟩⟩

/-- A live calculation is called off by hand, its sequence is used once more, and the text
    is edited again before anything has come to its end. -/
def typing : Stage :=
  [editing 1 "" "1/3", .cancel 1, .submit 1 .simplify "2/6", editing 2 "1/3" "1/37"].foldl
    Stage.move (.start (.new {} (.new .dec true) .standard .mute))

/-- What is called off the second time is the fresh token of the sequence, and the live
    calculation that had the old one stays called off. -/
theorem live_superseded_replaced :
    typing.holders = [⟨1, 0, true⟩, ⟨1, 1, false⟩, ⟨2, 2, true⟩] ∧
      (typing.holders.filter fun x =>
        x.live && !typing.session.cancellations.isCancelled x.token).length ≤ 1 ∧
      ∀ x ∈ typing.holders, x.live = true →
        typing.session.cancellations.isCancelled x.token = false → x.sequence = 2 := by
  rcases live_superseded (.new {} (.new .dec true) .standard .mute)
    [editing 1 "" "1/3", .cancel 1, .submit 1 .simplify "2/6", editing 2 "1/3" "1/37"]
    (by decide) with ⟨hone, hlatest⟩
  refine ⟨by decide +kernel, hone, fun x hx hlive hfree => ?_⟩
  have hedits : typing.edits.getLast? = some 2 := by decide +kernel
  exact (Option.some.inj (hedits.symm.trans (hlatest x hx hlive hfree))).symm

end Live

end ExactCalc
