import Mathlib.Algebra.Order.Ring.Int
import Mathlib.Algebra.BigOperators.Group.List.Basic

/-!
# Brackets That Belong Together

Which brackets of a text have a counterpart, and which are left over.

A text is balanced if it falls into groups, each between an opening and a closing
bracket, and characters that are no brackets. The two shapes of brackets are
interchangeable. Two brackets belong together if what stands between them is balanced,
and a bracket with no other that it belongs to is left over.

In a balanced text nothing is left over, which is an induction on its groups. The other
direction needs a count. The depth of a text, the brackets it opens less those it
closes, is zero for a balanced text and never negative for the beginning of one. So a
closing bracket behind a balanced text belongs to none before it, and neither does an
opening one in front of a balanced text belong to any behind it: in both cases the text
in between would have to be deeper at one end than it can be.

`Leaves` says of a text which opening brackets it leaves open, and how it is made up of
them and of balanced texts in between. It grows at the end, as a text does that is
being read.

## Main definitions

* `Brackets.Balanced`, `Brackets.Matched`: Balanced texts, and two brackets that belong
  together.
* `Brackets.Unopened`, `Brackets.Unclosed`: Brackets that are left over.
* `Brackets.Leaves`: The opening brackets that a text leaves open.

## Theorems

* `paired_of_balanced`: Nothing is left over in a balanced text.
* `unopened_of_balanced`: A closing bracket behind a balanced text is the first that is
  left over.
* `unclosed_of_balanced`: An opening bracket in front of a balanced text is the last that
  is left over.
* `Leaves.append_balanced`, `Leaves.append_closing`: How a text goes on.
-/

namespace ExactCalc

namespace Brackets

/-- Whether a character opens a group. -/
def opens (c : Char) : Bool := c == '(' || c == '['

/-- Whether a character closes a group. -/
def closes (c : Char) : Bool := c == ')' || c == ']'

/-- A text in which all brackets belong together. -/
inductive Balanced : List Char → Prop where
  | nil : Balanced []
  | other {c : Char} (hopens : opens c = false) (hcloses : closes c = false) : Balanced [c]
  | group {o c : Char} {inside : List Char} (hopens : opens o = true) (hcloses : closes c = true)
      (h : Balanced inside) : Balanced (o :: (inside ++ [c]))
  | append {as bs : List Char} (has : Balanced as) (hbs : Balanced bs) : Balanced (as ++ bs)

/-- The brackets at two places of a text belong together. -/
def Matched (text : List Char) (i k : Nat) : Prop :=
  ∃ before o inside c rest, text = before ++ o :: (inside ++ c :: rest) ∧
    before.length = i ∧ i + 1 + inside.length = k ∧
    opens o = true ∧ closes c = true ∧ Balanced inside

/-- A closing bracket that belongs to no opening one. -/
def Unopened (text : List Char) (k : Nat) : Prop :=
  (∃ c, text[k]? = some c ∧ closes c = true) ∧ ∀ i, ¬Matched text i k

/-- An opening bracket that belongs to no closing one. -/
def Unclosed (text : List Char) (i : Nat) : Prop :=
  (∃ c, text[i]? = some c ∧ opens c = true) ∧ ∀ k, ¬Matched text i k

@[simp] theorem opens_iff {c : Char} : opens c = true ↔ c = '(' ∨ c = '[' := by
  rw [opens, Bool.or_eq_true, beq_iff_eq, beq_iff_eq]

@[simp] theorem closes_iff {c : Char} : closes c = true ↔ c = ')' ∨ c = ']' := by
  rw [closes, Bool.or_eq_true, beq_iff_eq, beq_iff_eq]

theorem closes_of_opens {c : Char} (h : opens c = true) : closes c = false := by
  rcases opens_iff.mp h with rfl | rfl <;> rfl

theorem opens_of_closes {c : Char} (h : closes c = true) : opens c = false := by
  rw [← Bool.not_eq_true]
  intro hopens
  rw [closes_of_opens hopens] at h
  exact Bool.false_ne_true h

/-! ## Depth -/

/-- What a character adds to the depth. -/
def rise (c : Char) : Int := if opens c then 1 else if closes c then -1 else 0

/-- How many more brackets a text opens than it closes. -/
def depth (cs : List Char) : Int := (cs.map rise).sum

@[simp, grind =]
theorem depth_append (as bs : List Char) : depth (as ++ bs) = depth as + depth bs := by
  rw [depth, List.map_append, List.sum_append]
  rfl

theorem depth_opening {o : Char} (h : opens o = true) (cs : List Char) :
    depth (o :: cs) = 1 + depth cs := by
  rw [depth, List.map_cons, List.sum_cons, rise, if_pos h]
  rfl

theorem depth_closing {c : Char} (h : closes c = true) (cs : List Char) :
    depth (c :: cs) = -1 + depth cs := by
  rw [depth, List.map_cons, List.sum_cons, rise, if_neg (by rw [opens_of_closes h]; decide),
    if_pos h]
  rfl

theorem depth_other {c : Char} (hopens : opens c = false) (hcloses : closes c = false)
    (cs : List Char) : depth (c :: cs) = depth cs := by
  rw [depth, List.map_cons, List.sum_cons, rise, hopens, hcloses]
  exact Int.zero_add _

theorem Balanced.depth_eq {cs : List Char} (h : Balanced cs) : depth cs = 0 := by
  induction h with
  | nil => rfl
  | other hopens hcloses => exact depth_other hopens hcloses []
  | group hopens hcloses _ ih =>
      rw [depth_opening hopens, depth_append, depth_closing hcloses, ih]
      rfl
  | append _ _ has hbs => rw [depth_append, has, hbs]; rfl

/-- The beginning of a balanced text closes nothing that it has not opened. -/
theorem Balanced.depth_take {cs : List Char} (h : Balanced cs) (n : Nat) :
    0 ≤ depth (cs.take n) := by
  induction h generalizing n with
  | nil => rw [List.take_nil]; exact Int.le_refl 0
  | other hopens hcloses =>
      cases n with
      | zero => exact Int.le_refl 0
      | succ n =>
          rw [List.take_succ_cons, List.take_nil, depth_other hopens hcloses]
          exact Int.le_refl 0
  | @group o c inside hopens hcloses _ ih =>
      cases n with
      | zero => exact Int.le_refl 0
      | succ n =>
          -- The closing bracket takes back no more than the opening one has added.
          have hlast : -1 ≤ depth ([c].take (n - inside.length)) := by
            cases n - inside.length with
            | zero => exact neg_one_lt_zero.le
            | succ m =>
                rw [List.take_succ_cons, depth_closing hcloses, List.take_nil]
                exact Int.le_refl _
          have hinside := ih n
          rw [List.take_succ_cons, depth_opening hopens, List.take_append, depth_append]
          omega
  | @append as bs _ _ has hbs =>
      rw [List.take_append, depth_append]
      exact Int.add_nonneg (has n) (hbs _)

theorem Balanced.depth_prefix {as bs : List Char} (h : Balanced (as ++ bs)) : 0 ≤ depth as := by
  have htake := h.depth_take as.length
  rwa [List.take_left] at htake

/-! ## Nothing left over -/

theorem balanced_of_plain {cs : List Char}
    (h : ∀ c ∈ cs, opens c = false ∧ closes c = false) : Balanced cs := by
  induction cs with
  | nil => exact .nil
  | cons c cs ih =>
      rcases List.forall_mem_cons.mp h with ⟨hc, hcs⟩
      exact .append (.other hc.1 hc.2) (ih hcs)

/-- Brackets that belong together do so within any other text. -/
theorem Matched.within {cs : List Char} {i k : Nat} (h : Matched cs i k) (as bs : List Char) :
    Matched (as ++ (cs ++ bs)) (as.length + i) (as.length + k) := by
  rcases h with ⟨before, o, inside, c, rest, rfl, rfl, rfl, hopens, hcloses, hinside⟩
  refine ⟨as ++ before, o, inside, c, rest ++ bs, ?_, List.length_append, ?_, hopens, hcloses,
    hinside⟩
  · simp only [List.append_assoc, List.cons_append]
  · omega

/-- If there is a bracket at a place of a text, it belongs to another one. -/
def Paired (text : List Char) (n : Nat) : Prop :=
  ∀ c, text[n]? = some c →
    (closes c = true → ∃ i, Matched text i n) ∧ (opens c = true → ∃ k, Matched text n k)

theorem Paired.within {cs : List Char} {n : Nat} (h : Paired cs n) (hn : n < cs.length)
    (as bs : List Char) : Paired (as ++ (cs ++ bs)) (as.length + n) := by
  intro c hc
  rw [List.getElem?_append_right (Nat.le_add_right _ _), Nat.add_sub_cancel_left,
    List.getElem?_append_left hn] at hc
  rcases h c hc with ⟨hcloses, hopens⟩
  exact ⟨fun hc => (hcloses hc).elim fun i hi => ⟨_, hi.within as bs⟩,
    fun hc => (hopens hc).elim fun k hk => ⟨_, hk.within as bs⟩⟩

/-- Every bracket of a balanced text belongs to another one. -/
theorem paired_of_balanced {cs : List Char} (h : Balanced cs) (n : Nat) : Paired cs n := by
  induction h generalizing n with
  | nil =>
      intro c hc
      cases hc
  | @other d hopens hcloses =>
      intro c hc
      have hd : c = d := List.mem_singleton.mp (List.mem_of_getElem? hc)
      rw [hd, hopens, hcloses]
      exact ⟨fun h => absurd h Bool.false_ne_true, fun h => absurd h Bool.false_ne_true⟩
  | @group o d inside hopens hcloses hinside ih =>
      -- The two ends belong to each other, and a bracket inside has its partner inside.
      have hends : Matched (o :: (inside ++ [d])) 0 (inside.length + 1) :=
        ⟨[], o, inside, d, [], rfl, rfl, by omega, hopens, hcloses, hinside⟩
      cases n with
      | zero =>
          intro c hc
          rw [List.getElem?_cons_zero, Option.some.injEq] at hc
          rw [← hc, closes_of_opens hopens]
          exact ⟨fun h => absurd h Bool.false_ne_true, fun _ => ⟨_, hends⟩⟩
      | succ n =>
          by_cases hn : n < inside.length
          · have hwithin := (ih n).within hn [o] [d]
            rwa [List.length_singleton, Nat.add_comm] at hwithin
          · intro c hc
            rw [List.getElem?_cons_succ, List.getElem?_append_right (Nat.le_of_not_lt hn)] at hc
            have hd : c = d := List.mem_singleton.mp (List.mem_of_getElem? hc)
            have hlast : n = inside.length := by
              have hlt : n - inside.length < 1 := (List.getElem?_eq_some_iff.mp hc).1
              omega
            rw [hd, hlast, opens_of_closes hcloses]
            exact ⟨fun _ => ⟨_, hends⟩, fun h => absurd h Bool.false_ne_true⟩
  | @append as bs _ _ has hbs =>
      -- The partner of a bracket stands in the same part as the bracket.
      by_cases hn : n < as.length
      · have hwithin := (has n).within hn [] bs
        rwa [List.nil_append, List.length_nil, Nat.zero_add] at hwithin
      · by_cases hlen : n - as.length < bs.length
        · have hwithin := (hbs (n - as.length)).within hlen as []
          rwa [List.append_nil, Nat.add_sub_cancel' (Nat.le_of_not_lt hn)] at hwithin
        · intro c hc
          have hlt : n < (as ++ bs).length := (List.getElem?_eq_some_iff.mp hc).1
          rw [List.length_append] at hlt
          omega

/-! ## What is left over -/

/-- A closing bracket behind a balanced text is the first that is left over. -/
theorem unopened_of_balanced {cs rest : List Char} {c : Char} (h : Balanced cs)
    (hc : closes c = true) :
    Unopened (cs ++ c :: rest) cs.length ∧ ∀ k < cs.length, ¬Unopened (cs ++ c :: rest) k := by
  refine ⟨⟨⟨c, by rw [List.getElem?_append_right (Nat.le_refl _), Nat.sub_self]; rfl, hc⟩, ?_⟩, ?_⟩
  · rintro i ⟨before, o, inside, d, rest', htext, hbefore, hk, hopens, -, hinside⟩
    -- Up to the bracket the two ways to cut the text agree, and the second is too deep.
    have hcs : cs = before ++ o :: inside := by
      have hsplit : cs ++ c :: rest = (before ++ o :: inside) ++ d :: rest' := by
        rw [htext, List.append_assoc, List.cons_append]
      refine (List.append_inj hsplit ?_).1
      rw [List.length_append, List.length_cons]
      omega
    have hdeep := h.depth_eq
    rw [hcs] at h hdeep
    rw [depth_append, depth_opening hopens, hinside.depth_eq] at hdeep
    have hbegin := h.depth_prefix
    omega
  · rintro k hk ⟨⟨d, hd, hcloses⟩, hnone⟩
    rw [List.getElem?_append_left hk] at hd
    rcases (paired_of_balanced h k d hd).1 hcloses with ⟨i, hi⟩
    have hwithin := hi.within [] (c :: rest)
    rw [List.nil_append, List.length_nil, Nat.zero_add, Nat.zero_add] at hwithin
    exact hnone i hwithin

/-- An opening bracket in front of a balanced text is the last that is left over. -/
theorem unclosed_of_balanced {cs rest : List Char} {o : Char} (ho : opens o = true)
    (h : Balanced rest) :
    Unclosed (cs ++ o :: rest) cs.length ∧ ∀ i, cs.length < i → ¬Unclosed (cs ++ o :: rest) i := by
  refine ⟨⟨⟨o, by rw [List.getElem?_append_right (Nat.le_refl _), Nat.sub_self]; rfl, ho⟩, ?_⟩, ?_⟩
  · rintro k ⟨before, o', inside, d, rest', htext, hbefore, -, -, hcloses, hinside⟩
    have hsplit := List.append_inj htext hbefore.symm
    have hrest : rest = (inside ++ [d]) ++ rest' := by
      rw [(List.cons.inj hsplit.2).2, List.append_assoc, List.singleton_append]
    rw [hrest] at h
    have hbegin := h.depth_prefix
    rw [depth_append, depth_closing hcloses, hinside.depth_eq] at hbegin
    exact absurd hbegin (by decide)
  · rintro i hi ⟨⟨d, hd, hopens⟩, hnone⟩
    have hplace : i = (cs ++ [o]).length + (i - cs.length - 1) := by
      rw [List.length_append, List.length_singleton]
      omega
    have htext : cs ++ o :: rest = (cs ++ [o]) ++ (rest ++ []) := by
      rw [List.append_nil, List.append_assoc, List.singleton_append]
    rw [htext, hplace] at hnone
    rw [htext, hplace, List.append_nil, List.getElem?_append_right (Nat.le_add_right _ _),
      Nat.add_sub_cancel_left] at hd
    rcases (paired_of_balanced h _ d hd).2 hopens with ⟨k, hk⟩
    exact hnone _ (hk.within (cs ++ [o]) [])

/-! ## Reading on -/

/-- The places of the opening brackets that a text leaves open, the last one first. -/
inductive Leaves : List Char → List Nat → Prop where
  | balanced {cs : List Char} (h : Balanced cs) : Leaves cs []
  | opened {cs inside : List Char} {o : Char} {places : List Nat} (h : Leaves cs places)
      (hopens : opens o = true) (hinside : Balanced inside) :
      Leaves (cs ++ o :: inside) (cs.length :: places)

namespace Leaves

variable {cs : List Char} {places : List Nat}

theorem append_balanced (h : Leaves cs places) {bs : List Char} (hbs : Balanced bs) :
    Leaves (cs ++ bs) places := by
  cases h with
  | balanced h => exact .balanced (h.append hbs)
  | opened h hopens hinside =>
      rw [List.append_assoc, List.cons_append]
      exact .opened h hopens (hinside.append hbs)

theorem append_opening (h : Leaves cs places) {o : Char} (ho : opens o = true) :
    Leaves (cs ++ [o]) (cs.length :: places) :=
  .opened h ho .nil

/-- A closing bracket closes what has been left open last. -/
theorem append_closing {place : Nat} (h : Leaves cs (place :: places)) {c : Char}
    (hc : closes c = true) : Leaves (cs ++ [c]) places := by
  cases h with
  | opened h hopens hinside =>
      rw [List.append_assoc, List.cons_append]
      exact h.append_balanced (.group hopens hc hinside)

theorem balanced_of_nil (h : Leaves cs []) : Balanced cs := by
  cases h with
  | balanced h => exact h

/-- What is left open last is the last bracket that is left over. -/
theorem unclosed {place : Nat} (h : Leaves cs (place :: places)) :
    Unclosed cs place ∧ ∀ i, place < i → ¬Unclosed cs i := by
  cases h with
  | opened h hopens hinside => exact unclosed_of_balanced hopens hinside

theorem lt_length {place : Nat} (h : Leaves cs (place :: places)) : place < cs.length := by
  cases h with
  | opened h hopens hinside =>
      rw [List.length_append, List.length_cons]
      omega

end Leaves

end Brackets

end ExactCalc
