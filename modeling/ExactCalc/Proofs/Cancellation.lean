import ExactCalc.Cancellation
import Mathlib.Data.List.Nodup

/-!
# Tokens over a History of Calls

Tokens follow the calculations that hold them, in whatever order the calls come.

The table remembers little: one token and one number for each sequence. What it
answers is meant in terms of the past, though. A calculation is called off if its
sequence was called off since it took its token, and a sequence has something
under way if a token taken for it has not been given back. So the calls are kept
in a history here, a calculation is known by the place at which it took its
token, and the table is compared with what the history says.

Calculations of one sequence need not share their token. One that was called off
keeps its own while later ones share a fresh one, and it may even outlive them.
`Agrees` is the invariant for this: whoever is under way holds the token that the
table has for the sequence, or one that has been called off already. The tokens
of different sequences never meet, since each token has been issued for one
sequence only; `owner` says for which.

## Main definitions

* `Cancellations.Call`, `after`: The calls, and the table after a history.
* `Cancellations.UnderWay`, `underWay`: What a history says is under way.
* `Cancellations.Matched`: Nothing is given back that is not held.
* `Cancellations.tokenAt`: The token that was taken at a place.
* `Cancellations.Agrees`: What the table has to do with the history.
* `Cancellations.ownerAfter`: The sequences that tokens are issued for.

## Theorems

* `taken_take`, `chain?_giveBack`, `chain?_cancel`: What each call does.
* `Taken.passes_on`: Who holds which token when the next one is taken.
* `Agrees.past_concat`, `Agrees.running_concat`, `Agrees.taken_concat`,
  `Agrees.cancelled_concat`: What a call keeps that leaves a part of the table alone.
* `agrees_take`, `agrees_giveBack`, `agrees_cancel`: Each call keeps the table in
  agreement with the history.
* `agrees_after`: So does every history.
* `tokens_follow_history`: What the table says of chains and tokens.
-/

namespace ExactCalc

namespace Cancellations

open Cancellation (Chain)

/-- A call to the table. A token is given back by the calculation that took it at
    the given place of the history. -/
inductive Call where
  | take (sequence : Nat)
  | giveBack (sequence place : Nat)
  | cancel (sequence : Nat)
  deriving DecidableEq, Repr

/-- What a call makes of the table. -/
def call (c : Cancellations) : Call → Cancellations
  | .take sequence => (c.take sequence).2
  | .giveBack sequence _ => c.giveBack sequence
  | .cancel sequence => (c.cancel sequence).2

/-- The table after a history of calls, the first call first. -/
def after (calls : List Call) : Cancellations := calls.foldl call .empty

/-- A token was taken for a sequence at a place, and has not been given back. -/
def UnderWay (calls : List Call) (sequence place : Nat) : Prop :=
  calls[place]? = some (.take sequence) ∧ .giveBack sequence place ∉ calls

instance (calls : List Call) (sequence place : Nat) :
    Decidable (UnderWay calls sequence place) :=
  inferInstanceAs (Decidable (_ ∧ _))

/-- The places at which the tokens of a sequence were taken that have not been
    given back. -/
def underWay (calls : List Call) (sequence : Nat) : List Nat :=
  (List.range calls.length).filter (UnderWay calls sequence ·)

/-- The histories in which nothing is given back but what is under way. The other
    calls may come at any time. -/
inductive Matched : List Call → Prop where
  | nil : Matched []
  | take {calls : List Call} (h : Matched calls) (sequence : Nat) :
      Matched (calls ++ [.take sequence])
  | giveBack {calls : List Call} {sequence place : Nat} (h : Matched calls)
      (hway : UnderWay calls sequence place) : Matched (calls ++ [.giveBack sequence place])
  | cancel {calls : List Call} (h : Matched calls) (sequence : Nat) :
      Matched (calls ++ [.cancel sequence])

/-- The token that a calculation of a sequence took at a place. -/
def tokenAt (calls : List Call) (sequence place : Nat) : Nat :=
  ((after (calls.take place)).take sequence).1

/-- What the table has to do with the history that led to it. Tokens belong to the
    sequences they were issued for, as `owner` tells. -/
structure Agrees (calls : List Call) (owner : Nat → Nat) : Prop where
  /-- Nothing is given back before it is taken. -/
  past : ∀ sequence place, .giveBack sequence place ∈ calls → place < calls.length
  /-- There is a chain for what is under way, which counts it. -/
  running : ∀ sequence, ((after calls).chain? sequence).map (·.running) =
    if underWay calls sequence = [] then none else some (underWay calls sequence).length
  /-- Only tokens that have been issued are called off. -/
  calledOff : ∀ token ∈ (after calls).calledOff, token < (after calls).issued
  /-- A chain has a token issued for its sequence. -/
  chain : ∀ sequence ch, (after calls).chain? sequence = some ch →
    ch.token < (after calls).issued ∧ owner ch.token = sequence
  /-- And so has a calculation. -/
  taken : ∀ sequence place, calls[place]? = some (.take sequence) →
    tokenAt calls sequence place < (after calls).issued ∧
      owner (tokenAt calls sequence place) = sequence
  /-- Whoever is under way holds the token of the chain, or one that is called off. -/
  held : ∀ sequence place ch, UnderWay calls sequence place →
    (after calls).chain? sequence = some ch → tokenAt calls sequence place = ch.token ∨
      (after calls).isCancelled (tokenAt calls sequence place) = true
  /-- Called off is whoever was under way when its sequence was. -/
  cancelled : ∀ sequence place, UnderWay calls sequence place →
    ((after calls).isCancelled (tokenAt calls sequence place) = true ↔
      ∃ later, place < later ∧ calls[later]? = some (.cancel sequence))

section Table

variable {c : Cancellations} {sequence other : Nat} {ch : Chain}

theorem sequence_of_chain? (h : c.chain? sequence = some ch) : ch.sequence = sequence := by
  have hfound := List.find?_some h
  exact beq_iff_eq.mp hfound

/-- The chains of the other sequences. -/
theorem find?_without (chains : List Chain) (sequence other : Nat) :
    (chains.filter (·.sequence != sequence)).find? (·.sequence == other) =
      if other = sequence then none else chains.find? (·.sequence == other) := by
  rw [List.find?_filter]
  by_cases h : other = sequence
  · rw [if_pos h, List.find?_eq_none]
    intro d _
    rw [decide_eq_true_eq, h, bne_iff_ne, beq_iff_eq]
    exact fun hd => hd.1 hd.2
  · rw [if_neg h]
    congr 1
    funext d
    by_cases hd : d.sequence = other
    · rw [hd, beq_self_eq_true, decide_eq_true_eq, bne_iff_ne]
      exact ⟨h, rfl⟩
    · rw [beq_eq_false_iff_ne.mpr hd, decide_eq_false_iff_not]
      exact fun hd' => Bool.false_ne_true hd'.2

@[simp, grind =] theorem chain?_put (c : Cancellations) (ch : Chain) (sequence : Nat) :
    (c.put ch).chain? sequence =
      if sequence = ch.sequence then some ch else c.chain? sequence := by
  simp only [put, chain?]
  by_cases h : sequence = ch.sequence
  · rw [if_pos h, List.find?_cons_of_pos]
    rw [h, beq_self_eq_true]
  · rw [if_neg h, List.find?_cons_of_neg, find?_without, if_neg h]
    rw [beq_iff_eq]
    exact fun h' => h h'.symm

/-- A taken token: a fresh one, unless the chain of the sequence has one that has
    not been called off. -/
structure Taken (c : Cancellations) (sequence token : Nat) (c' : Cancellations) : Prop where
  calledOff : c'.calledOff = c.calledOff
  counted : c'.chain? sequence =
    some ⟨sequence, token, ((c.chain? sequence).map (·.running)).getD 0 + 1⟩
  others : ∀ other, other ≠ sequence → c'.chain? other = c.chain? other
  origin : (c'.issued = c.issued ∧ c.isCancelled token = false ∧
      ∃ ch, c.chain? sequence = some ch ∧ token = ch.token) ∨
    (c'.issued = c.issued + 1 ∧ token = c.issued ∧
      ∀ ch, c.chain? sequence = some ch → c.isCancelled ch.token = true)

theorem Taken.isCancelled_eq {token : Nat} {c' : Cancellations}
    (h : Taken c sequence token c') (other : Nat) : c'.isCancelled other = c.isCancelled other := by
  rw [isCancelled, h.calledOff, isCancelled]

/-- The token of the chain is passed on, or it is replaced because it is called off. -/
theorem Taken.passes_on {token : Nat} {c' : Cancellations} (h : Taken c sequence token c')
    (hch : c.chain? sequence = some ch) {t : Nat} (ht : t = ch.token ∨ c.isCancelled t = true) :
    t = token ∨ c'.isCancelled t = true := by
  rw [h.isCancelled_eq]
  rcases h.origin with ⟨-, -, ch', hch', htoken⟩ | ⟨-, -, hoff⟩
  · rw [hch, Option.some.injEq] at hch'
    rw [hch', ← htoken] at ht
    exact ht
  · exact .inr (ht.elim (fun htoken => htoken ▸ hoff ch hch) id)

theorem taken_take (c : Cancellations) (sequence : Nat) :
    Taken c sequence (c.take sequence).1 (c.take sequence).2 := by
  -- The chain that is put in place says which token was taken.
  have hput : ∀ (d : Cancellations) (token running : Nat), d.chains = c.chains →
      (∀ other, other ≠ sequence →
        (d.put ⟨sequence, token, running⟩).chain? other = c.chain? other) ∧
      (d.put ⟨sequence, token, running⟩).chain? sequence = some ⟨sequence, token, running⟩ := by
    intro d token running hd
    refine ⟨fun other hother => ?_, ?_⟩
    · rw [chain?_put, if_neg hother, chain?, chain?, hd]
    · rw [chain?_put, if_pos rfl]
  unfold take
  rcases hchain : c.chain? sequence with _ | ch
  · rcases hput { c with issued := c.issued + 1 } c.issued 1 rfl with ⟨hothers, hsame⟩
    refine ⟨rfl, ?_, hothers, .inr ⟨rfl, rfl, fun ch hch => ?_⟩⟩
    · rw [hchain]
      exact hsame
    · rw [hchain] at hch
      cases hch
  have hsequence := sequence_of_chain? hchain
  by_cases hoff : c.isCancelled ch.token = true
  · rcases hput { c with issued := c.issued + 1 } c.issued (ch.running + 1) rfl with
      ⟨hothers, hsame⟩
    simp only [hoff, if_true]
    refine ⟨rfl, ?_, hothers, .inr ⟨rfl, rfl, fun ch' hch' => ?_⟩⟩
    · rw [hchain]
      exact hsame
    · rw [hchain, Option.some.injEq] at hch'
      rw [← hch']
      exact hoff
  · rw [Bool.not_eq_true] at hoff
    rcases hput c ch.token (ch.running + 1) rfl with ⟨hothers, hsame⟩
    rw [← hsequence] at hothers hsame
    simp only [hoff, Bool.false_eq_true, if_false]
    refine ⟨rfl, ?_, ?_, .inl ⟨rfl, hoff, ch, hchain, rfl⟩⟩
    · rw [hchain, ← hsequence]
      exact hsame
    · rw [← hsequence]
      exact hothers

/-- Giving a token back counts it off, and the last one takes the chain with
    it. -/
@[simp, grind =] theorem chain?_giveBack (c : Cancellations) (sequence other : Nat) :
    (c.giveBack sequence).chain? other =
      if other = sequence then
        (c.chain? sequence).bind fun ch =>
          if ch.running ≤ 1 then none else some { ch with running := ch.running - 1 }
      else c.chain? other := by
  unfold giveBack
  rcases hchain : c.chain? sequence with _ | ch
  · by_cases h : other = sequence
    · rw [if_pos h, h, hchain]
      rfl
    · rw [if_neg h]
  have hsequence := sequence_of_chain? hchain
  simp only [Option.bind_some]
  by_cases hlast : ch.running ≤ 1
  · simp only [hlast, if_true]
    exact find?_without c.chains sequence other
  · simp only [hlast, if_false, chain?_put, hsequence]

theorem giveBack_keeps (c : Cancellations) (sequence : Nat) :
    (c.giveBack sequence).issued = c.issued ∧ (c.giveBack sequence).calledOff = c.calledOff := by
  unfold giveBack
  split
  · exact ⟨rfl, rfl⟩
  · split <;> exact ⟨rfl, rfl⟩

/-- Calling a sequence off leaves the chains alone, and adds to the tokens that
    are called off the one of its chain. -/
theorem chain?_cancel (c : Cancellations) (sequence other : Nat) :
    (c.cancel sequence).2.chain? other = c.chain? other ∧
      (c.cancel sequence).2.issued = c.issued ∧
      (c.cancel sequence).2.calledOff =
        ((c.chain? sequence).map (·.token)).toList ++ c.calledOff := by
  unfold cancel
  rcases c.chain? sequence with _ | ch <;> exact ⟨rfl, rfl, rfl⟩

theorem isCancelled_iff {token : Nat} : c.isCancelled token = true ↔ token ∈ c.calledOff :=
  List.contains_iff_mem

theorem isCancelled_cancel {token : Nat} : (c.cancel sequence).2.isCancelled token = true ↔
    (∃ ch, c.chain? sequence = some ch ∧ token = ch.token) ∨ c.isCancelled token = true := by
  rw [isCancelled_iff, (chain?_cancel c sequence sequence).2.2, List.mem_append, isCancelled_iff,
    Option.mem_toList, Option.map_eq_some_iff]
  simp only [eq_comm]

end Table

section History

variable {calls : List Call} {x : Call} {sequence place : Nat}

@[simp, grind =] theorem after_concat (calls : List Call) (x : Call) :
    after (calls ++ [x]) = (after calls).call x := by
  rw [after, List.foldl_append]
  rfl

theorem lt_of_taken (h : calls[place]? = some (.take sequence)) : place < calls.length :=
  (List.getElem?_eq_some_iff.mp h).1

/-- Which token was taken at a place is settled by the calls up to there. -/
theorem tokenAt_concat (x : Call) (sequence : Nat) (h : place ≤ calls.length) :
    tokenAt (calls ++ [x]) sequence place = tokenAt calls sequence place := by
  rw [tokenAt, List.take_append_of_le_length h, tokenAt]

@[simp] theorem tokenAt_length (calls : List Call) (sequence : Nat) :
    tokenAt calls sequence calls.length = ((after calls).take sequence).1 := by
  rw [tokenAt, List.take_length]

theorem getElem?_concat {y : Call} : (calls ++ [x])[place]? = some y ↔
    calls[place]? = some y ∨ (place = calls.length ∧ x = y) := by
  rcases Nat.lt_trichotomy place calls.length with h | h | h
  · rw [List.getElem?_append_left h]
    simp only [Nat.ne_of_lt h, false_and, or_false]
  · rw [h, List.getElem?_append_right (Nat.le_refl _), Nat.sub_self, List.getElem?_cons_zero,
      List.getElem?_eq_none (Nat.le_refl _)]
    simp only [Option.some.injEq, reduceCtorEq, true_and, false_or]
  · rw [List.getElem?_eq_none (by rw [List.length_append, List.length_singleton]; omega),
      List.getElem?_eq_none (Nat.le_of_lt h)]
    simp only [reduceCtorEq, Nat.ne_of_gt h, false_and, or_self]

/-- What is under way after one more call. -/
theorem underWay_concat (hpast : ∀ s p, .giveBack s p ∈ calls → p < calls.length) :
    UnderWay (calls ++ [x]) sequence place ↔
      (UnderWay calls sequence place ∧ x ≠ .giveBack sequence place) ∨
        (place = calls.length ∧ x = .take sequence) := by
  unfold UnderWay
  rw [getElem?_concat, List.mem_append, List.mem_singleton, not_or]
  constructor
  · rintro ⟨h | h, hgiven, hx⟩
    · exact .inl ⟨⟨h, hgiven⟩, fun h' => hx h'.symm⟩
    · exact .inr h
  · rintro (⟨⟨h, hgiven⟩, hx⟩ | ⟨hplace, hx⟩)
    · exact ⟨.inl h, hgiven, fun h' => hx h'.symm⟩
    · refine ⟨.inr ⟨hplace, hx⟩, fun hgiven => ?_, ?_⟩
      · exact absurd (hpast _ _ hgiven) (by omega)
      · rw [hx]
        simp

@[simp] theorem mem_underWay : place ∈ underWay calls sequence ↔ UnderWay calls sequence place := by
  rw [underWay, List.mem_filter, List.mem_range, decide_eq_true_eq]
  exact ⟨And.right, fun h => ⟨lt_of_taken h.1, h⟩⟩

theorem nodup_underWay (calls : List Call) (sequence : Nat) : (underWay calls sequence).Nodup :=
  List.nodup_range.filter _

theorem underWay_concat_eq (hpast : ∀ s p, .giveBack s p ∈ calls → p < calls.length)
    (x : Call) (sequence : Nat) :
    underWay (calls ++ [x]) sequence =
      (underWay calls sequence).filter (x ≠ .giveBack sequence ·) ++
        if x = .take sequence then [calls.length] else [] := by
  rw [underWay, List.length_append, List.length_singleton, List.range_succ, List.filter_append]
  congr 1
  · rw [underWay, List.filter_filter]
    refine List.filter_congr (fun place hplace => ?_)
    rw [List.mem_range] at hplace
    rw [← Bool.decide_and, decide_eq_decide, underWay_concat hpast, and_comm]
    simp only [Nat.ne_of_lt hplace, false_and, or_false]
  · have hnew : UnderWay (calls ++ [x]) sequence calls.length ↔ x = .take sequence := by
      rw [underWay_concat hpast]
      refine ⟨fun h => h.elim (fun h => ?_) And.right, fun h => .inr ⟨rfl, h⟩⟩
      exact absurd (lt_of_taken h.1.1) (Nat.lt_irrefl _)
    by_cases hx : x = .take sequence
    · rw [if_pos hx, List.filter_singleton, decide_eq_true (hnew.mpr hx), cond_true]
    · rw [if_neg hx, List.filter_singleton, decide_eq_false (fun h => hx (hnew.mp h)), cond_false]

/-- A call that gives nothing back leaves what was under way as it is. -/
theorem filter_underWay (h : ∀ place, x ≠ .giveBack sequence place) :
    (underWay calls sequence).filter (x ≠ .giveBack sequence ·) = underWay calls sequence :=
  List.filter_eq_self.mpr (fun place _ => decide_eq_true (h place))

/-- Only a call of a sequence to call it off adds to the places where that was done. -/
theorem exists_cancel_concat (hx : x ≠ .cancel sequence) :
    (∃ later, place < later ∧ (calls ++ [x])[later]? = some (.cancel sequence)) ↔
      ∃ later, place < later ∧ calls[later]? = some (.cancel sequence) := by
  simp only [getElem?_concat, hx, and_false, or_false]

end History

section Steps

variable {calls : List Call} {owner : Nat → Nat} {sequence place : Nat}

theorem Agrees.exists_chain (h : Agrees calls owner) (hway : UnderWay calls sequence place) :
    ∃ ch, (after calls).chain? sequence = some ch ∧
      ch.running = (underWay calls sequence).length := by
  have hrunning := h.running sequence
  rw [if_neg (List.ne_nil_of_mem (mem_underWay.mpr hway)), Option.map_eq_some_iff] at hrunning
  exact hrunning

theorem agrees_nil (owner : Nat → Nat) : Agrees [] owner where
  past _ _ h := absurd h List.not_mem_nil
  running _ := rfl
  calledOff _ h := absurd h List.not_mem_nil
  chain _ _ h := nomatch h
  taken _ _ h := nomatch h
  held _ _ _ h := nomatch h.1
  cancelled _ _ h := nomatch h.1

section Any

variable {x : Call}

/-- What is given back was taken before. -/
theorem Agrees.past_concat (h : Agrees calls owner)
    (hx : ∀ s p, x = .giveBack s p → p < calls.length) (s p : Nat)
    (hp : .giveBack s p ∈ calls ++ [x]) : p < (calls ++ [x]).length := by
  rw [List.mem_append, List.mem_singleton] at hp
  rw [List.length_append]
  exact Nat.lt_add_right _ (hp.elim (h.past s p) fun hp => hx s p hp.symm)

/-- A call that neither takes nor gives back a token of a sequence leaves its count. -/
theorem Agrees.running_concat (h : Agrees calls owner)
    (hchain : (after (calls ++ [x])).chain? sequence = (after calls).chain? sequence)
    (htake : x ≠ .take sequence) (hgive : ∀ place, x ≠ .giveBack sequence place) :
    ((after (calls ++ [x])).chain? sequence).map (·.running) =
      if underWay (calls ++ [x]) sequence = [] then none
      else some (underWay (calls ++ [x]) sequence).length := by
  rw [hchain, underWay_concat_eq h.past, filter_underWay hgive, if_neg htake, List.append_nil,
    h.running sequence]

/-- A call that takes no token adds nothing to what is under way. -/
theorem Agrees.underWay_of_concat (h : Agrees calls owner)
    (hway : UnderWay (calls ++ [x]) sequence place) (hx : ∀ s, x ≠ .take s) :
    UnderWay calls sequence place :=
  ((underWay_concat h.past).mp hway).elim And.left fun hnew => absurd hnew.2 (hx sequence)

theorem tokenAt_underWay (hway : UnderWay calls sequence place) :
    tokenAt (calls ++ [x]) sequence place = tokenAt calls sequence place :=
  tokenAt_concat x sequence (Nat.le_of_lt (lt_of_taken hway.1))

/-- Nor does it issue one. -/
theorem Agrees.taken_concat (h : Agrees calls owner) (hx : ∀ s, x ≠ .take s)
    (hissued : (after (calls ++ [x])).issued = (after calls).issued) (s p : Nat)
    (hp : (calls ++ [x])[p]? = some (.take s)) :
    tokenAt (calls ++ [x]) s p < (after (calls ++ [x])).issued ∧
      owner (tokenAt (calls ++ [x]) s p) = s := by
  have hold := (getElem?_concat.mp hp).resolve_right fun hnew => hx s hnew.2
  rw [hissued, tokenAt_concat _ _ (Nat.le_of_lt (lt_of_taken hold))]
  exact h.taken s p hold

/-- Where no token is called off, nothing under way is. -/
theorem Agrees.cancelled_concat (h : Agrees calls owner) (hx : x ≠ .cancel sequence)
    (hsame : (after (calls ++ [x])).calledOff = (after calls).calledOff)
    (hway : UnderWay calls sequence place) :
    (after (calls ++ [x])).isCancelled (tokenAt (calls ++ [x]) sequence place) = true ↔
      ∃ later, place < later ∧ (calls ++ [x])[later]? = some (.cancel sequence) := by
  rw [tokenAt_underWay hway, exists_cancel_concat hx, isCancelled, hsame]
  exact h.cancelled sequence place hway

end Any

section Taking

/-- The sequences that tokens are issued for, when the next one is for the given
    sequence. -/
def ownerAfter (c : Cancellations) (owner : Nat → Nat) (sequence token : Nat) : Nat :=
  if token < c.issued then owner token else sequence

/-- The table before and after a token is taken. -/
theorem taken_after (calls : List Call) (sequence : Nat) :
    Taken (after calls) sequence (tokenAt calls sequence calls.length)
      (after (calls ++ [.take sequence])) := by
  rw [tokenAt_length, after_concat]
  exact taken_take (after calls) sequence

theorem issued_le_take (calls : List Call) (sequence : Nat) :
    (after calls).issued ≤ (after (calls ++ [.take sequence])).issued := by
  rcases (taken_after calls sequence).origin with ⟨hissued, -⟩ | ⟨hissued, -⟩ <;> omega

/-- A token of the past is below all fresh ones, so it keeps its owner. -/
theorem old_take {token s : Nat} (sequence : Nat) (hlt : token < (after calls).issued)
    (howner : owner token = s) :
    token < (after (calls ++ [.take sequence])).issued ∧
      ownerAfter (after calls) owner sequence token = s := by
  rw [ownerAfter, if_pos hlt]
  exact ⟨Nat.lt_of_lt_of_le hlt (issued_le_take calls sequence), howner⟩

/-- What is taken is the token of the chain, where that has not been called off,
    or one that nobody has had yet; so it is not called off itself. -/
theorem Agrees.new_take (h : Agrees calls owner) (sequence : Nat) :
    (tokenAt calls sequence calls.length < (after (calls ++ [.take sequence])).issued ∧
      ownerAfter (after calls) owner sequence (tokenAt calls sequence calls.length) = sequence) ∧
      (after calls).isCancelled (tokenAt calls sequence calls.length) = false := by
  rcases (taken_after calls sequence).origin with
    ⟨-, hfree, ch, hch, htoken⟩ | ⟨hissued, htoken, -⟩
  · rcases h.chain sequence ch hch with ⟨hlt, howner⟩
    rw [← htoken] at hlt howner
    exact ⟨old_take sequence hlt howner, hfree⟩
  · refine ⟨⟨by omega, by rw [ownerAfter, if_neg (by omega)]⟩, ?_⟩
    rw [← Bool.not_eq_true, isCancelled_iff]
    intro hmem
    have hlt := h.calledOff _ hmem
    omega

theorem Agrees.running_take (h : Agrees calls owner) (sequence s : Nat) :
    ((after (calls ++ [.take sequence])).chain? s).map (·.running) =
      if underWay (calls ++ [.take sequence]) s = [] then none
      else some (underWay (calls ++ [.take sequence]) s).length := by
  have htaken := taken_after calls sequence
  by_cases hs : s = sequence
  · have hrunning := h.running sequence
    rw [underWay_concat_eq h.past, filter_underWay (x := .take sequence) nofun, hs, htaken.counted,
      if_pos (rfl : Call.take sequence = .take sequence),
      if_neg (List.append_ne_nil_of_right_ne_nil _ (List.cons_ne_nil _ _)), List.length_append,
      hrunning]
    by_cases hnil : underWay calls sequence = []
    · rw [if_pos hnil, hnil]
      rfl
    · rw [if_neg hnil]
      rfl
  · exact h.running_concat (htaken.others s hs) (fun h' => hs (Call.take.inj h').symm) nofun

theorem Agrees.chain_take (h : Agrees calls owner) (sequence s : Nat) (ch : Chain)
    (hch : (after (calls ++ [.take sequence])).chain? s = some ch) :
    ch.token < (after (calls ++ [.take sequence])).issued ∧
      ownerAfter (after calls) owner sequence ch.token = s := by
  have htaken := taken_after calls sequence
  by_cases hs : s = sequence
  · rw [hs, htaken.counted, Option.some.injEq] at hch
    rw [← hch, hs]
    exact (h.new_take sequence).1
  · rw [htaken.others s hs] at hch
    rcases h.chain s ch hch with ⟨hlt, howner⟩
    exact old_take sequence hlt howner

theorem Agrees.taken_take (h : Agrees calls owner) (sequence s p : Nat)
    (hp : (calls ++ [.take sequence])[p]? = some (.take s)) :
    tokenAt (calls ++ [.take sequence]) s p < (after (calls ++ [.take sequence])).issued ∧
      ownerAfter (after calls) owner sequence (tokenAt (calls ++ [.take sequence]) s p) = s := by
  rcases getElem?_concat.mp hp with hold | ⟨rfl, hs⟩
  · rw [tokenAt_concat _ _ (Nat.le_of_lt (lt_of_taken hold))]
    rcases h.taken s p hold with ⟨hlt, howner⟩
    exact old_take sequence hlt howner
  · rw [tokenAt_concat _ _ (Nat.le_refl _), ← Call.take.inj hs]
    exact (h.new_take sequence).1

theorem Agrees.held_take (h : Agrees calls owner) (sequence s p : Nat) (ch : Chain)
    (hway : UnderWay (calls ++ [.take sequence]) s p)
    (hch : (after (calls ++ [.take sequence])).chain? s = some ch) :
    tokenAt (calls ++ [.take sequence]) s p = ch.token ∨
      (after (calls ++ [.take sequence])).isCancelled
        (tokenAt (calls ++ [.take sequence]) s p) = true := by
  have htaken := taken_after calls sequence
  rcases (underWay_concat h.past).mp hway with ⟨hway, -⟩ | ⟨rfl, hs⟩
  · rw [tokenAt_underWay hway]
    by_cases hs : s = sequence
    · rcases h.exists_chain hway with ⟨ch', hch', -⟩
      have hheld := h.held s p ch' hway hch'
      rw [hs, htaken.counted, Option.some.injEq] at hch
      rw [← hch]
      exact htaken.passes_on (hs ▸ hch') hheld
    · rw [htaken.others s hs] at hch
      rw [htaken.isCancelled_eq]
      exact h.held s p ch hway hch
  · rw [Call.take.injEq] at hs
    rw [← hs, htaken.counted, Option.some.injEq] at hch
    rw [← hs, tokenAt_concat _ _ (Nat.le_refl _), ← hch]
    exact .inl rfl

theorem Agrees.cancelled_take (h : Agrees calls owner) (sequence s p : Nat)
    (hway : UnderWay (calls ++ [.take sequence]) s p) :
    (after (calls ++ [.take sequence])).isCancelled
        (tokenAt (calls ++ [.take sequence]) s p) = true ↔
      ∃ later, p < later ∧ (calls ++ [.take sequence])[later]? = some (.cancel s) := by
  have htaken := taken_after calls sequence
  rcases (underWay_concat h.past).mp hway with ⟨hway, -⟩ | ⟨rfl, hs⟩
  · exact h.cancelled_concat nofun htaken.calledOff hway
  · -- Nothing comes later than the call that has just been made.
    rw [← Call.take.inj hs, exists_cancel_concat (x := .take sequence) nofun,
      tokenAt_concat _ _ (Nat.le_refl _), htaken.isCancelled_eq, (h.new_take sequence).2]
    refine iff_of_false Bool.false_ne_true ?_
    rintro ⟨later, hlater, hcancel⟩
    exact absurd (List.getElem?_eq_some_iff.mp hcancel).1 (by omega)

/-- Taking a token keeps the agreement; a fresh one is issued for its sequence. -/
theorem agrees_take (h : Agrees calls owner) (sequence : Nat) :
    Agrees (calls ++ [.take sequence]) (ownerAfter (after calls) owner sequence) where
  past := h.past_concat nofun
  running := h.running_take sequence
  calledOff token ht := by
    rw [(taken_after calls sequence).calledOff] at ht
    exact Nat.lt_of_lt_of_le (h.calledOff token ht) (issued_le_take calls sequence)
  chain := h.chain_take sequence
  taken := h.taken_take sequence
  held := h.held_take sequence
  cancelled := h.cancelled_take sequence

end Taking

section GivingBack

/-- The tokens issued and called off are the same after one is given back. -/
theorem keeps_giveBack (calls : List Call) (sequence place : Nat) :
    (after (calls ++ [.giveBack sequence place])).issued = (after calls).issued ∧
      (after (calls ++ [.giveBack sequence place])).calledOff = (after calls).calledOff := by
  rw [after_concat]
  exact giveBack_keeps (after calls) sequence

/-- What is left of a chain has the token it had. -/
theorem token_giveBack {s : Nat} {ch : Chain}
    (hch : (after (calls ++ [.giveBack sequence place])).chain? s = some ch) :
    ∃ ch', (after calls).chain? s = some ch' ∧ ch'.token = ch.token := by
  rw [after_concat, call, chain?_giveBack] at hch
  by_cases hs : s = sequence
  · rw [if_pos hs, Option.bind_eq_some_iff] at hch
    rcases hch with ⟨ch', hch', hch⟩
    by_cases hlast : ch'.running ≤ 1
    · rw [if_pos hlast] at hch
      cases hch
    · rw [if_neg hlast, Option.some.injEq] at hch
      exact ⟨ch', hs ▸ hch', by rw [← hch]⟩
  · rw [if_neg hs] at hch
    exact ⟨ch, hch, rfl⟩

/-- The one that gives its token back is taken out of those under way. -/
theorem filter_underWay_giveBack (calls : List Call) (sequence place : Nat) :
    (underWay calls sequence).filter
        (Call.giveBack sequence place ≠ .giveBack sequence ·) =
      (underWay calls sequence).erase place := by
  rw [(nodup_underWay calls sequence).erase_eq_filter]
  refine List.filter_congr (fun p _ => ?_)
  rw [Bool.eq_iff_iff, decide_eq_true_eq, bne_iff_ne, ne_eq, Call.giveBack.injEq, eq_self,
    true_and, ne_comm]

theorem Agrees.running_giveBack (h : Agrees calls owner) (hway : UnderWay calls sequence place)
    (s : Nat) :
    ((after (calls ++ [.giveBack sequence place])).chain? s).map (·.running) =
      if underWay (calls ++ [.giveBack sequence place]) s = [] then none
      else some (underWay (calls ++ [.giveBack sequence place]) s).length := by
  by_cases hs : s = sequence
  · have hmem := mem_underWay.mpr hway
    have hlength := List.length_erase_of_mem hmem
    have hpos := List.length_pos_of_mem hmem
    rcases h.exists_chain hway with ⟨ch, hch, hrunning⟩
    have hnone : Call.giveBack sequence place ≠ .take sequence := nofun
    rw [hs, underWay_concat_eq h.past, filter_underWay_giveBack, if_neg hnone, List.append_nil,
      after_concat, call, chain?_giveBack, if_pos rfl, hch, Option.bind_some]
    by_cases hlast : ch.running ≤ 1
    · rw [if_pos hlast, if_pos (List.eq_nil_of_length_eq_zero (by omega))]
      rfl
    · rw [if_neg hlast, if_neg (List.ne_nil_of_length_pos (by omega)), hlength, ← hrunning]
      rfl
  · refine h.running_concat ?_ nofun fun p hp => hs (Call.giveBack.inj hp).1.symm
    rw [after_concat, call, chain?_giveBack, if_neg hs]

theorem Agrees.held_giveBack (h : Agrees calls owner) (s p : Nat) (ch : Chain)
    (hway : UnderWay (calls ++ [.giveBack sequence place]) s p)
    (hch : (after (calls ++ [.giveBack sequence place])).chain? s = some ch) :
    tokenAt (calls ++ [.giveBack sequence place]) s p = ch.token ∨
      (after (calls ++ [.giveBack sequence place])).isCancelled
        (tokenAt (calls ++ [.giveBack sequence place]) s p) = true := by
  have hstill := h.underWay_of_concat hway nofun
  rcases token_giveBack hch with ⟨ch', hch', htoken⟩
  rw [isCancelled, (keeps_giveBack calls sequence place).2, ← isCancelled,
    tokenAt_underWay hstill, ← htoken]
  exact h.held s p ch' hstill hch'

/-- Giving a token back keeps the agreement. -/
theorem agrees_giveBack (h : Agrees calls owner) (hway : UnderWay calls sequence place) :
    Agrees (calls ++ [.giveBack sequence place]) owner where
  past := h.past_concat fun _ _ hx => (Call.giveBack.inj hx).2 ▸ lt_of_taken hway.1
  running := h.running_giveBack hway
  calledOff := by
    rw [(keeps_giveBack calls sequence place).1, (keeps_giveBack calls sequence place).2]
    exact h.calledOff
  chain s ch hch := by
    rcases token_giveBack hch with ⟨ch', hch', htoken⟩
    rw [(keeps_giveBack calls sequence place).1, ← htoken]
    exact h.chain s ch' hch'
  taken := h.taken_concat nofun (keeps_giveBack calls sequence place).1
  held := h.held_giveBack
  cancelled s p hp := h.cancelled_concat nofun (keeps_giveBack calls sequence place).2
    (h.underWay_of_concat hp nofun)

end GivingBack

section CallingOff

/-- The chains and the tokens issued are the same after a sequence is called off. -/
theorem keeps_cancel (calls : List Call) (sequence s : Nat) :
    (after (calls ++ [.cancel sequence])).chain? s = (after calls).chain? s ∧
      (after (calls ++ [.cancel sequence])).issued = (after calls).issued := by
  rw [after_concat]
  exact ⟨(chain?_cancel _ sequence s).1, (chain?_cancel _ sequence s).2.1⟩

theorem isCancelled_after_cancel {token : Nat} :
    (after (calls ++ [.cancel sequence])).isCancelled token = true ↔
      (∃ ch, (after calls).chain? sequence = some ch ∧ token = ch.token) ∨
        (after calls).isCancelled token = true := by
  rw [after_concat]
  exact isCancelled_cancel

/-- Whoever is under way holds the token of the chain, which is called off now, or one
    that had been called off; and the token of another sequence is not that of the
    chain. -/
theorem Agrees.cancelled_cancel (h : Agrees calls owner) (sequence s p : Nat)
    (hway : UnderWay (calls ++ [.cancel sequence]) s p) :
    (after (calls ++ [.cancel sequence])).isCancelled
        (tokenAt (calls ++ [.cancel sequence]) s p) = true ↔
      ∃ later, p < later ∧ (calls ++ [.cancel sequence])[later]? = some (.cancel s) := by
  have hstill := h.underWay_of_concat hway nofun
  rw [isCancelled_after_cancel, tokenAt_underWay hstill]
  by_cases hs : s = sequence
  · rcases h.exists_chain hstill with ⟨ch, hch, -⟩
    refine iff_of_true ?_ ⟨calls.length, lt_of_taken hstill.1, ?_⟩
    · exact (h.held s p ch hstill hch).imp (fun htoken => ⟨ch, hs ▸ hch, htoken⟩) id
    · exact getElem?_concat.mpr (.inr ⟨rfl, by rw [hs]⟩)
  · have hne : ¬∃ ch, (after calls).chain? sequence = some ch ∧ tokenAt calls s p = ch.token := by
      rintro ⟨ch, hch, htoken⟩
      have howner := (h.taken s p hstill.1).2
      rw [htoken, (h.chain sequence ch hch).2] at howner
      exact hs howner.symm
    rw [exists_cancel_concat fun h' => hs (Call.cancel.inj h').symm, ← h.cancelled s p hstill]
    exact or_iff_right hne

/-- Calling a sequence off keeps the agreement. -/
theorem agrees_cancel (h : Agrees calls owner) (sequence : Nat) :
    Agrees (calls ++ [.cancel sequence]) owner where
  past := h.past_concat nofun
  running s := h.running_concat (keeps_cancel calls sequence s).1 nofun nofun
  calledOff token ht := by
    rw [(keeps_cancel calls sequence sequence).2]
    rcases isCancelled_after_cancel.mp (isCancelled_iff.mpr ht) with ⟨ch, hch, rfl⟩ | hold
    · exact (h.chain sequence ch hch).1
    · exact h.calledOff token (isCancelled_iff.mp hold)
  chain s ch hch := by
    rw [(keeps_cancel calls sequence s).1] at hch
    rw [(keeps_cancel calls sequence s).2]
    exact h.chain s ch hch
  taken := h.taken_concat nofun (keeps_cancel calls sequence sequence).2
  held s p ch hway hch := by
    have hstill := h.underWay_of_concat hway nofun
    rw [(keeps_cancel calls sequence s).1] at hch
    rw [isCancelled_after_cancel, tokenAt_underWay hstill]
    exact (h.held s p ch hstill hch).imp id .inr
  cancelled := h.cancelled_cancel sequence

end CallingOff

end Steps

/-- After every history the table agrees with it. -/
theorem agrees_after {calls : List Call} (h : Matched calls) : ∃ owner, Agrees calls owner := by
  induction h with
  | nil => exact ⟨id, agrees_nil id⟩
  | take _ sequence ih =>
      rcases ih with ⟨_, hagrees⟩
      exact ⟨_, agrees_take hagrees sequence⟩
  | giveBack _ hway ih =>
      rcases ih with ⟨owner, hagrees⟩
      exact ⟨owner, agrees_giveBack hagrees hway⟩
  | cancel _ sequence ih =>
      rcases ih with ⟨owner, hagrees⟩
      exact ⟨owner, agrees_cancel hagrees sequence⟩

/-- Tokens follow the calculations that hold them, whatever the history of calls,
    as long as nothing is given back that is not held. The table has a chain for
    a sequence exactly if a calculation of it is under way, and counts them;
    calling the sequence off finds something exactly then. A calculation under way
    is called off if and only if its sequence was called off after it took its
    token. And calling off a sequence touches no calculation of another one, nor
    the chain of that. -/
theorem tokens_follow_history (calls : List Call) (h : Matched calls) :
    (∀ sequence, ((after calls).chain? sequence).map (·.running) =
      if underWay calls sequence = [] then none else some (underWay calls sequence).length) ∧
    (∀ sequence, ((after calls).cancel sequence).1 = true ↔
      ∃ place, UnderWay calls sequence place) ∧
    (∀ sequence place, UnderWay calls sequence place →
      ((after calls).isCancelled (tokenAt calls sequence place) = true ↔
        ∃ later, place < later ∧ calls[later]? = some (.cancel sequence))) ∧
    ∀ sequence other, other ≠ sequence →
      ((after calls).cancel sequence).2.chain? other = (after calls).chain? other ∧
      ∀ place, UnderWay calls other place →
        ((after calls).cancel sequence).2.isCancelled (tokenAt calls other place) =
          (after calls).isCancelled (tokenAt calls other place) := by
  rcases agrees_after h with ⟨owner, hagrees⟩
  refine ⟨hagrees.running, fun sequence => ?_, hagrees.cancelled, fun sequence other hother =>
    ⟨(chain?_cancel _ sequence other).1, fun place hway => ?_⟩⟩
  · have hfound : ((after calls).cancel sequence).1 = ((after calls).chain? sequence).isSome := by
      unfold cancel
      split <;> rename_i hchain <;> rw [hchain] <;> rfl
    rw [hfound, ← Option.isSome_map, hagrees.running sequence]
    by_cases hnil : underWay calls sequence = []
    · refine iff_of_false (by rw [if_pos hnil]; exact Bool.false_ne_true) ?_
      rintro ⟨place, hway⟩
      exact List.ne_nil_of_mem (mem_underWay.mpr hway) hnil
    · rcases List.exists_mem_of_ne_nil _ hnil with ⟨place, hplace⟩
      exact iff_of_true (by rw [if_neg hnil]; rfl) ⟨place, mem_underWay.mp hplace⟩
  · -- The token of the chain was issued for the one sequence, the other token for the other.
    rw [Bool.eq_iff_iff, isCancelled_cancel]
    refine or_iff_right ?_
    rintro ⟨ch, hch, htoken⟩
    have howner := (hagrees.taken other place hway.1).2
    rw [htoken, (hagrees.chain sequence ch hch).2] at howner
    exact hother howner.symm

/-- Two calculations of one sequence that do not share their token: the first one
    was called off, and the second came later. Another sequence gives its token
    back meanwhile. -/
theorem tokens_follow_replaced :
    Matched ([] ++ [.take 1] ++ [.take 2] ++ [.cancel 1] ++ [.take 1] ++ [.giveBack 2 1]) ∧
      (after [.take 1, .take 2, .cancel 1, .take 1, .giveBack 2 1]).isCancelled 0 = true ∧
      (after [.take 1, .take 2, .cancel 1, .take 1, .giveBack 2 1]).isCancelled 2 = false ∧
      ((after [.take 1, .take 2, .cancel 1, .take 1, .giveBack 2 1]).cancel 2).1 = false := by
  have hmatched : Matched
      ([] ++ [.take 1] ++ [.take 2] ++ [.cancel 1] ++ [.take 1] ++ [.giveBack 2 1]) :=
    .giveBack (.take (.cancel (.take (.take .nil 1) 2) 1) 1) (by decide)
  rcases tokens_follow_history _ hmatched with ⟨-, hfound, hcancelled, -⟩
  refine ⟨hmatched, ?_, ?_, ?_⟩
  · exact (hcancelled 1 0 (by decide)).mpr ⟨2, by decide⟩
  · rw [← Bool.not_eq_true]
    intro h
    rcases (hcancelled 1 3 (by decide)).mp h with ⟨later, hlater, hcancel⟩
    have hlast : later = 4 := by
      have hlt := (List.getElem?_eq_some_iff.mp hcancel).1
      simp only [List.length_append, List.length_cons, List.length_nil] at hlt
      omega
    rw [hlast] at hcancel
    exact absurd hcancel (by decide)
  · rw [← Bool.not_eq_true]
    intro h
    rcases (hfound 2).mp h with ⟨place, hway⟩
    exact List.ne_nil_of_mem (mem_underWay.mpr hway) (by decide)

end Cancellations

end ExactCalc
