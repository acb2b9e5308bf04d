import ExactCalc.Proofs.Postfix.Operands

/-!
# Tokens in Their Place

Which of the rows that are read as a tree are infix expressions.

The yard only counts. It sends tokens out in some order, and the row is accepted
if the trees that the order builds come to one in the end; nothing asks whether
a token stood where the grammar has one of its kind. So `1 2 +` is read as a sum,
and `1 ( )` as one. What is missing from that check is local: a value, a function
and an opening bracket stand where an operand is expected, a closing bracket and
an operator where one has just ended, except that a sign may stand in either
place. `placed` says so, one token at a time.

A row of tokens in their places whose brackets close is always an infix
expression. It is read off from the left, as a recursive descent would: an
operand, then the power it begins, the product that one begins, and the sum.
Each of these stops before a token that binds too loosely for it, which `Ends`
bounds by the same precedences that the yard compares. A sum is stopped by no
operator, so what stops it is the bracket that closes its group, or the end.

## Main definitions

* `placed`: Every token stands in a place of its kind.
* `nested`: Every bracket is closed, and none that was not opened.
* `Expects`, `Follows`, `Ends`: What a row is where an operand is expected, where
  one has ended, and where a phrase stops.
* `Splits`: A phrase stands at the front of a row.

## Theorems

* `nested_of_ofTokens`: The yard accepts only closed brackets.
* `splits_of_expects`: Tokens in their places begin with phrases of every kind.
* `placed_append_of_derives`: The tokens of a phrase stand in their places.
* `ofPostfix_within`: What the bound on the depth decides.
* `infix_iff_placed`: Accepted and in place is the same as infix.
-/

namespace ExactCalc

namespace Postfix

/-- Every token stands in a place of its kind, and the row ends behind an
    operand. The flag says whether one has just ended. -/
def placed (afterOperand : Bool) : List Token → Bool
  | [] => afterOperand
  | t :: ts =>
    match t with
    | .num _ | .pi => !afterOperand && placed true ts
    | .ident name => !afterOperand && placed (!isFunctionName name) ts
    | .lparen => !afterOperand && placed false ts
    | .rparen => afterOperand && placed true ts
    | .plus | .minus => placed false ts
    | .star | .slash | .caret => afterOperand && placed false ts
    | .neg => false

/-- With `n` brackets open, every bracket is closed in the end, and none that was
    not opened. -/
def nested (n : Nat) : List Token → Bool
  | [] => n == 0
  | t :: ts =>
    match t, n with
    | .lparen, n => nested (n + 1) ts
    | .rparen, 0 => false
    | .rparen, n + 1 => nested n ts
    | _, n => nested n ts

section Nesting

variable {t : Token} {ts row out ws ws' : List Token} {y y' : Yard}

theorem count_release (ht : isOperator t = true) :
    (Yard.release t out ws).2.count .lparen = ws.count .lparen := by
  induction ws generalizing out with
  | nil => rfl
  | cons w ws ih =>
      rw [Yard.release]
      by_cases hleaves : leaves t w = true
      · rw [if_pos hleaves, ih, List.count_cons_of_ne (not_lparen_of_leaves ht hleaves)]
      · rw [if_neg hleaves]

theorem count_operate (ht : isOperator t = true) :
    (y.operate t).waiting.count .lparen = y.waiting.count .lparen := by
  rw [Yard.operate, List.count_cons_of_ne (not_lparen_of_isOperator ht), count_release ht]

theorem count_releaseGroup {out' : List Token}
    (h : Yard.releaseGroup out ws = some (out', ws')) :
    ws.count .lparen = ws'.count .lparen + 1 := by
  induction ws generalizing out with
  | nil => cases h
  | cons w ws ih =>
      rw [Yard.releaseGroup] at h
      by_cases hw : w = .lparen
      · rw [if_pos hw, Option.some.injEq, Prod.mk.injEq] at h
        rw [hw, List.count_cons_self, h.2]
      · rw [if_neg hw] at h
        rw [List.count_cons_of_ne hw, ih h]

/-- A closing bracket takes one opening bracket away, and no function is one. -/
theorem count_close (h : y.close = .ok y') :
    y.waiting.count .lparen = y'.waiting.count .lparen + 1 := by
  rw [Yard.close] at h
  split at h
  · cases h
  · rename_i out f ws hgroup
    rw [count_releaseGroup hgroup]
    split at h
    · rename_i hf
      rw [← Except.ok.inj h, List.count_cons_of_ne (not_lparen_of_isFunction hf)]
    · rw [← Except.ok.inj h]
  · rename_i out hgroup
    rw [count_releaseGroup hgroup, ← Except.ok.inj h]

theorem count_drain (h : Yard.drain out ws = .ok row) : ws.count .lparen = 0 := by
  induction ws generalizing out with
  | nil => rfl
  | cons w ws ih =>
      rw [Yard.drain] at h
      by_cases hw : w = .lparen
      · rw [if_pos hw] at h
        cases h
      · rw [if_neg hw] at h
        rw [List.count_cons_of_ne hw, ih h]

/-- One token opens or closes a bracket in the yard as it does in the row. -/
theorem nested_step (h : y.step t = .ok y') :
    nested (y.waiting.count .lparen) (t :: ts) = nested (y'.waiting.count .lparen) ts := by
  cases t with
  | num | pi => rw [← Except.ok.inj h]; rfl
  | ident name =>
      rw [← Except.ok.inj h]
      split
      · have hname : Token.ident name ≠ .lparen := nofun
        rw [Yard.wait, List.count_cons_of_ne hname]
        rfl
      · rfl
  | lparen => rw [← Except.ok.inj h, Yard.wait, List.count_cons_self]; rfl
  | neg => rw [← Except.ok.inj h, Yard.wait, List.count_cons_of_ne (by decide)]; rfl
  | rparen => rw [count_close h]; rfl
  | plus =>
      rw [← Except.ok.inj h]
      split
      · rw [count_operate rfl]; rfl
      · rfl
  | minus =>
      rw [← Except.ok.inj h]
      split
      · rw [count_operate rfl]; rfl
      · rw [List.count_cons_of_ne (by decide)]; rfl
  | star | slash | caret => rw [← Except.ok.inj h, count_operate rfl]; rfl

theorem nested_of_run (h : Yard.run y ts = .ok y') (hend : y'.waiting.count .lparen = 0) :
    nested (y.waiting.count .lparen) ts = true := by
  induction ts generalizing y with
  | nil =>
      rw [Yard.run, Except.ok.injEq] at h
      rw [h, hend]
      rfl
  | cons t ts ih =>
      rw [Yard.run] at h
      rcases hstep : y.step t with e | z
      · rw [hstep] at h
        cases h
      · rw [hstep] at h
        rw [nested_step hstep]
        exact ih h

/-- The yard accepts only rows whose brackets close. -/
theorem nested_of_ofTokens (h : ofTokens ts = .ok row) : nested 0 ts = true := by
  rw [ofTokens] at h
  rcases hrun : Yard.run .empty ts with e | y
  · rw [hrun] at h
    cases h
  rw [hrun] at h
  rcases hdrain : Yard.drain y.out y.waiting with e | out
  · simp only [hdrain, Except.map] at h
    cases h
  exact nested_of_run hrun (count_drain hdrain)

end Nesting

/-- Where an operand is expected, with `n` brackets open. -/
def Expects (n : Nat) (ts : List Token) : Prop :=
  placed false ts = true ∧ nested n ts = true

/-- Where an operand has ended, with `n` brackets open. -/
def Follows (n : Nat) (ts : List Token) : Prop :=
  placed true ts = true ∧ nested n ts = true

/-- An operator in front binds more loosely than a bound. -/
def Ends (m : Nat) (ts : List Token) : Prop :=
  ∀ t ∈ ts.head?, isOperator t = true → precedence t < m

/-- How tightly an operator binds at least that a phrase does not stop at. -/
def level : Phrase → Nat
  | .sum => 1
  | .product => 2
  | .power | .signed => 3
  | .factor => 5

/-- A phrase stands at the front of a row, and stops there. -/
def Splits (ph : Phrase) (n : Nat) (ts : List Token) : Prop :=
  ∃ as rest x, ts = as ++ rest ∧ Derives ph as x ∧ Follows n rest ∧ Ends (level ph) rest

section Splitting

variable {t : Token} {ts as rest : List Token} {n m : Nat} {x : Expr} {ph : Phrase}

theorem precedence_pos (ht : isOperator t = true) : 0 < precedence t := by
  cases t with
  | plus | minus | star | slash | caret => decide
  | _ => exact absurd ht Bool.false_ne_true

theorem sum_of_precedence (ht : isOperator t = true) (hprec : precedence t = 1) :
    t = .plus ∨ t = .minus := by
  cases t with
  | plus => exact .inl rfl
  | minus => exact .inr rfl
  | star | slash | caret => exact absurd hprec (by decide)
  | _ => exact absurd ht Bool.false_ne_true

theorem times_of_precedence (ht : isOperator t = true) (hprec : precedence t = 2) :
    t = .star ∨ t = .slash := by
  cases t with
  | star => exact .inl rfl
  | slash => exact .inr rfl
  | plus | minus | caret => exact absurd hprec (by decide)
  | _ => exact absurd ht Bool.false_ne_true

theorem ends_five (ts : List Token) : Ends 5 ts := by
  intro t _ ht
  cases t with
  | plus | minus | star | slash | caret => decide
  | _ => exact absurd ht Bool.false_ne_true

/-- Behind an operand stands an operator and an operand again, a closing bracket,
    or nothing. -/
theorem follows_cases (h : Follows n ts) :
    (ts = [] ∧ n = 0) ∨ (∃ rest m, ts = .rparen :: rest ∧ n = m + 1 ∧ Follows m rest) ∨
      ∃ t rest, ts = t :: rest ∧ isOperator t = true ∧ Expects n rest := by
  rcases h with ⟨hplaced, hnested⟩
  cases ts with
  | nil =>
      rw [nested, beq_iff_eq] at hnested
      exact .inl ⟨rfl, hnested⟩
  | cons t ts =>
      cases t with
      | num | pi | ident | lparen | neg =>
          exact absurd hplaced (by simp [placed])
      | rparen =>
          cases n with
          | zero => exact absurd hnested (by simp [nested])
          | succ m => exact .inr (.inl ⟨ts, m, rfl, rfl, hplaced, hnested⟩)
      | plus | minus | star | slash | caret =>
          exact .inr (.inr ⟨_, ts, rfl, rfl, hplaced, hnested⟩)

/-- One more token in front of a phrase. -/
theorem Splits.cons {ph' : Phrase} (t : Token) (h : Splits ph n ts) (hlevel : level ph ≤ level ph')
    (hderives : ∀ as x, Derives ph as x → ∃ y, Derives ph' (t :: as) y) :
    Splits ph' n (t :: ts) := by
  rcases h with ⟨as, rest, x, rfl, hx, hfollows, hends⟩
  rcases hderives as x hx with ⟨y, hy⟩
  refine ⟨t :: as, rest, y, rfl, hy, hfollows, fun u hu hop => ?_⟩
  exact Nat.lt_of_lt_of_le (hends u hu hop) hlevel

/-- An operand is a factor, or a sign with what it takes in. -/
def Operand (n : Nat) (ts : List Token) : Prop :=
  Splits .factor n ts ∨ Splits .signed n ts

theorem splits_of_value (hx : Derives .factor [t] x) (h : Follows n ts) :
    Splits .factor n (t :: ts) :=
  ⟨[t], ts, x, rfl, hx, h, ends_five ts⟩

/-- An operand, given those of the shorter rows. -/
theorem operand_of_expects (h : Expects n ts)
    (hoperand : ∀ {n ts'}, ts'.length < ts.length → Expects n ts' → Operand n ts')
    (hpower : ∀ {n ts'}, ts'.length < ts.length → Expects n ts' → Splits .power n ts')
    (hsum : ∀ {n ts'}, ts'.length < ts.length → Expects n ts' → Splits .sum n ts') :
    Operand n ts := by
  rcases h with ⟨hplaced, hnested⟩
  cases ts with
  | nil => exact absurd hplaced Bool.false_ne_true
  | cons t ts =>
      have hlt : ts.length < (t :: ts).length := Nat.lt_succ_self _
      cases t with
      | num q => exact .inl (splits_of_value (.number q) ⟨hplaced, hnested⟩)
      | pi => exact .inl (splits_of_value .pi ⟨hplaced, hnested⟩)
      | ident name =>
          rw [placed, Bool.not_false, Bool.true_and] at hplaced
          by_cases hname : isFunctionName name = true
          · -- A function calls the operand behind it, whichever kind that is.
            rw [hname] at hplaced
            rcases hoperand hlt ⟨hplaced, hnested⟩ with hfactor | hsigned
            · exact .inl (hfactor.cons _ (Nat.le_refl _) fun as x hx => ⟨_, .called hname hx⟩)
            · exact .inr (hsigned.cons _ (Nat.le_refl _) fun as x hx => ⟨_, .calledSigned hname hx⟩)
          · rw [Bool.not_eq_true] at hname
            rw [hname] at hplaced
            exact .inl (splits_of_value (.named hname) ⟨hplaced, hnested⟩)
      | lparen =>
          -- The sum in the group stops at a bracket, since some bracket is still open.
          rcases hsum hlt ⟨hplaced, hnested⟩ with ⟨as, rest, x, rfl, hx, hfollows, hends⟩
          rcases follows_cases hfollows with
            ⟨-, hn⟩ | ⟨rest, m, rfl, hn, hrest⟩ | ⟨t, rest, rfl, ht, -⟩
          · exact absurd hn (Nat.succ_ne_zero n)
          · rw [← Nat.succ.inj hn] at hrest
            refine .inl
              ⟨.lparen :: (as ++ [.rparen]), rest, x, ?_, .group hx, hrest, ends_five rest⟩
            rw [List.cons_append, List.append_assoc, List.singleton_append]
          · exact absurd (hends t rfl ht) (Nat.not_lt_of_le (precedence_pos ht))
      | minus =>
          exact .inr ((hpower hlt ⟨hplaced, hnested⟩).cons _ (Nat.le_refl _)
            fun as x hx => ⟨_, .negative hx⟩)
      | plus =>
          rcases hoperand hlt ⟨hplaced, hnested⟩ with hfactor | hsigned
          · exact .inl (hfactor.cons _ (Nat.le_refl _) fun as x hx => ⟨x, .plusFactor hx⟩)
          · exact .inr (hsigned.cons _ (Nat.le_refl _) fun as x hx => ⟨x, .plusSigned hx⟩)
      | rparen | star | slash | caret | neg => exact absurd hplaced Bool.false_ne_true

/-- A power, once its base has been read. -/
theorem power_of_operand (h : Operand n ts)
    (hpower : ∀ {n ts'}, ts'.length < ts.length → Expects n ts' → Splits .power n ts') :
    Splits .power n ts := by
  rcases h with ⟨as, rest, x, rfl, hx, hfollows, -⟩ | ⟨as, rest, x, rfl, hx, hfollows, hends⟩
  · by_cases hcaret : rest.head? = some .caret
    · -- Powers group to the right, so the exponent is a power in turn.
      rcases rest with _ | ⟨t, rest⟩
      · cases hcaret
      rw [List.head?_cons, Option.some.injEq] at hcaret
      subst hcaret
      have hlt : rest.length < (as ++ .caret :: rest).length := by
        rw [List.length_append, List.length_cons]
        omega
      rcases hpower hlt hfollows with ⟨bs, rest', y, rfl, hy, hfollows', hends'⟩
      refine ⟨as ++ .caret :: bs, rest', _, ?_, .raised hx hy, hfollows', hends'⟩
      rw [List.append_assoc, List.cons_append]
    · refine ⟨as, rest, x, rfl, .factor hx, hfollows, fun t ht hop => ?_⟩
      cases t with
      | caret => exact absurd ht hcaret
      | plus | minus | star | slash => decide
      | _ => exact absurd hop Bool.false_ne_true
  · exact ⟨as, rest, x, rfl, .signed hx, hfollows, hends⟩

/-- A phrase that groups to the left takes in one operator of its level after the
    other, until it stops before a looser one. -/
theorem splits_leftwards {inner : Phrase} (hlevel : level inner = level ph + 1)
    (hcombine : ∀ {as bs a b t}, isOperator t = true → precedence t = level ph →
      Derives ph as a → Derives inner bs b → Derives ph (as ++ t :: bs) (.operation t a b))
    (hinner : ∀ {ts'}, ts'.length < rest.length → Expects n ts' → Splits inner n ts')
    (hx : Derives ph as x) (hfollows : Follows n rest) (hends : Ends (level inner) rest) :
    Splits ph n (as ++ rest) := by
  -- The induction is on what has not been taken in yet.
  induction hm : rest.length using Nat.strong_induction_on generalizing as rest x with
  | _ m ih =>
      by_cases hstop : Ends (level ph) rest
      · exact ⟨as, rest, x, rfl, hx, hfollows, hstop⟩
      rcases follows_cases hfollows with
        ⟨rfl, -⟩ | ⟨rest', -, rfl, -, -⟩ | ⟨t, rest', rfl, ht, hexpects⟩
      · exact absurd (fun t ht => absurd ht (Option.not_mem_none t)) hstop
      · exact absurd (fun t ht hop => by cases ht; exact absurd hop Bool.false_ne_true) hstop
      · -- An operator that does not stop the phrase is of its level.
        have hprec : precedence t = level ph := by
          have hlt : precedence t < level inner := hends t rfl ht
          by_contra hne
          refine hstop (fun u hu _ => ?_)
          rw [List.head?_cons, Option.mem_some_iff] at hu
          rw [← hu]
          omega
        rcases hinner (Nat.lt_succ_self _) hexpects with ⟨bs, rest, b, rfl, hb, hfollows', hends'⟩
        have hlt : rest.length < m := by
          rw [← hm, List.length_cons, List.length_append]
          omega
        have hrest := ih rest.length hlt (fun hshort => hinner (by omega))
          (hcombine ht hprec hx hb) hfollows' hends' rfl
        rw [List.append_assoc, List.cons_append] at hrest
        exact hrest

/-- Where an operand is expected, tokens in their places and brackets that close
    begin with an operand, a power, a product and a sum. -/
theorem splits_of_expects (h : Expects n ts) :
    Operand n ts ∧ Splits .power n ts ∧ Splits .product n ts ∧ Splits .sum n ts := by
  induction hm : ts.length using Nat.strong_induction_on generalizing ts n with
  | _ m ih =>
      have hoperand : Operand n ts := operand_of_expects h
        (fun hlt h' => (ih _ (hm ▸ hlt) h' rfl).1) (fun hlt h' => (ih _ (hm ▸ hlt) h' rfl).2.1)
        (fun hlt h' => (ih _ (hm ▸ hlt) h' rfl).2.2.2)
      have hpower : Splits .power n ts :=
        power_of_operand hoperand (fun hlt h' => (ih _ (hm ▸ hlt) h' rfl).2.1)
      have hproduct : Splits .product n ts := by
        rcases hpower with ⟨as, rest, x, rfl, hx, hfollows, hends⟩
        rw [List.length_append] at hm
        refine splits_leftwards rfl (fun ht hprec ha hb => .times ?_ ha hb)
          (fun hlt h' => (ih _ (by omega) h' rfl).2.1) (.power hx) hfollows hends
        exact times_of_precedence ht hprec
      refine ⟨hoperand, hpower, hproduct, ?_⟩
      rcases hproduct with ⟨as, rest, x, rfl, hx, hfollows, hends⟩
      rw [List.length_append] at hm
      refine splits_leftwards rfl (fun ht hprec ha hb => .sum ?_ ha hb)
        (fun hlt h' => (ih _ (by omega) h' rfl).2.2.1) (.product hx) hfollows hends
      exact sum_of_precedence ht hprec

/-- A row of tokens in their places whose brackets close is an infix expression. -/
theorem derives_of_placed (hplaced : placed false ts = true) (hnested : nested 0 ts = true) :
    ∃ x, Derives .sum ts x := by
  rcases (splits_of_expects ⟨hplaced, hnested⟩).2.2.2 with ⟨as, rest, x, rfl, hx, hfollows, hends⟩
  -- No operator stops a sum, and no bracket is open that could be closed.
  rcases follows_cases hfollows with ⟨rfl, -⟩ | ⟨rest, m, -, hm, -⟩ | ⟨t, rest, rfl, ht, -⟩
  · rw [List.append_nil]
    exact ⟨x, hx⟩
  · exact absurd hm (Nat.succ_ne_zero m).symm
  · exact absurd (hends t rfl ht) (Nat.not_lt_of_le (precedence_pos ht))

end Splitting

/-- The tokens of a phrase stand in their places, from where an operand is expected
    to where one has ended. -/
theorem placed_append_of_derives {ph : Phrase} {ts : List Token} {x : Expr}
    (h : Derives ph ts x) (rest : List Token) : placed false (ts ++ rest) = placed true rest := by
  induction h generalizing rest with
  | product _ ih | power _ ih | factor _ ih | signed _ ih => exact ih rest
  | sum ht _ _ iha ihb =>
      rw [List.append_assoc, iha]
      rcases ht with rfl | rfl <;> exact ihb rest
  | times ht _ _ iha ihb =>
      rw [List.append_assoc, iha]
      rcases ht with rfl | rfl <;> exact ihb rest
  | raised _ _ iha ihb =>
      rw [List.append_assoc, iha]
      exact ihb rest
  | negative _ ih | plusSigned _ ih | plusFactor _ ih => exact ih rest
  | calledSigned hname _ ih | called hname _ ih =>
      rw [List.cons_append, placed, hname]
      exact ih rest
  | number | pi => rfl
  | named hname =>
      rw [List.singleton_append, placed, hname]
      rfl
  | group _ ih =>
      rw [List.cons_append, List.append_assoc]
      exact ih (.rparen :: rest)

section Depth

variable {bound bound' : Nat} {row : List Token} {stack stack' rest : List (Expr × Nat)}
  {t : Token} {x : Expr} {top : Expr × Nat}

/-- One token makes a tree with its depth beside it, and uncovers no other. -/
theorem reduce_depth (h : Expr.reduce stack t = .ok (top, rest))
    (hstack : ∀ p ∈ stack, p.2 = p.1.depth) : top.2 = top.1.depth ∧ rest ⊆ stack := by
  -- The depth beside a tree is computed from those beside its operands, which are right.
  cases t with
  | num | pi =>
      simp only [Expr.reduce, Except.ok.injEq, Prod.mk.injEq] at h
      rw [← h.1, ← h.2]
      exact ⟨rfl, List.Subset.refl stack⟩
  | plus | minus | star | slash | caret =>
      rcases stack with _ | ⟨⟨b, db⟩, _ | ⟨⟨a, da⟩, stack⟩⟩
      · cases h
      · cases h
      · simp only [List.forall_mem_cons] at hstack
        simp only [Expr.reduce, Except.ok.injEq, Prod.mk.injEq] at h
        rw [← h.1, ← h.2, depth_operation, ← hstack.1, ← hstack.2.1]
        exact ⟨rfl, fun p hp => List.mem_cons_of_mem _ (List.mem_cons_of_mem _ hp)⟩
  | neg =>
      rcases stack with _ | ⟨⟨a, da⟩, stack⟩
      · cases h
      · simp only [List.forall_mem_cons] at hstack
        simp only [Expr.reduce, Except.ok.injEq, Prod.mk.injEq] at h
        rw [← h.1, ← h.2, depth_negative, ← hstack.1]
        exact ⟨rfl, List.subset_cons_self _ _⟩
  | ident name =>
      simp only [Expr.reduce] at h
      by_cases hname : isFunctionName name = true
      · rw [if_pos hname] at h
        rcases stack with _ | ⟨⟨a, da⟩, stack⟩
        · cases h
        · simp only [List.forall_mem_cons] at hstack
          simp only [Except.ok.injEq, Prod.mk.injEq] at h
          rw [← h.1, ← h.2, depth_call, ← hstack.1]
          exact ⟨rfl, List.subset_cons_self _ _⟩
      · rw [if_neg hname, Except.ok.injEq, Prod.mk.injEq] at h
        rw [← h.1, ← h.2]
        exact ⟨rfl, List.Subset.refl stack⟩
  | lparen | rparen => cases h

/-- No tree on the stack is deeper than the bound, and no larger bound changes what
    is built. -/
theorem reduceAll_within (h : Expr.reduceAll bound stack row = .ok stack')
    (hstack : ∀ p ∈ stack, p.2 = p.1.depth ∧ p.2 ≤ bound) (hb : bound ≤ bound') :
    (∀ p ∈ stack', p.2 = p.1.depth ∧ p.2 ≤ bound) ∧
      Expr.reduceAll bound' stack row = .ok stack' := by
  induction row generalizing stack with
  | nil =>
      rw [Expr.reduceAll, Except.ok.injEq] at h
      rw [← h]
      exact ⟨hstack, rfl⟩
  | cons t row ih =>
      rw [Expr.reduceAll] at h ⊢
      rcases hred : Expr.reduce stack t with e | ⟨top, rest⟩
      · rw [hred] at h
        cases h
      rw [hred] at h
      simp only at h ⊢
      by_cases htop : top.2 > bound
      · rw [if_pos htop] at h
        cases h
      rw [if_neg htop] at h
      rw [if_neg (by omega)]
      rcases reduce_depth hred (fun p hp => (hstack p hp).1) with ⟨hdepth, hrest⟩
      refine ih h (List.forall_mem_cons.mpr ⟨⟨hdepth, by omega⟩, fun p hp => ?_⟩)
      exact hstack p (hrest hp)

/-- The tree of a row is no deeper than the bound, and the same within every larger
    one. -/
theorem ofPostfix_within (h : Expr.ofPostfix bound row = .ok x) (hb : bound ≤ bound') :
    x.depth ≤ bound ∧ Expr.ofPostfix bound' row = .ok x := by
  rw [Expr.ofPostfix] at h ⊢
  rcases hrun : Expr.reduceAll bound [] row with e | stack
  · rw [hrun] at h
    cases h
  rw [hrun] at h
  have hnil : ∀ p ∈ ([] : List (Expr × Nat)), p.2 = p.1.depth ∧ p.2 ≤ bound :=
    fun p hp => absurd hp List.not_mem_nil
  rcases reduceAll_within hrun hnil hb with ⟨hstack, hrun'⟩
  rw [hrun']
  rcases stack with _ | ⟨⟨y, d⟩, _ | ⟨p, stack⟩⟩
  · cases h
  · rw [Except.ok.injEq] at h
    rcases hstack _ List.mem_cons_self with ⟨hd, hle⟩
    rw [← h, ← hd]
    exact ⟨hle, rfl⟩
  · cases h

end Depth

/-- The rows that are read as a tree and whose tokens stand in their places are the
    infix expressions, each with its own tree. -/
theorem infix_iff_placed (ts : List Token) (x : Expr) (bound : Nat) :
    (Derives .sum ts x ∧ x.depth ≤ bound) ↔
      (placed false ts = true ∧ (ofTokens ts >>= Expr.ofPostfix bound) = .ok x) := by
  constructor
  · rintro ⟨hx, hbound⟩
    have hplaced := placed_append_of_derives hx []
    rw [List.append_nil] at hplaced
    rcases ofTokens_of_derives hx with ⟨row, hrow, hlists⟩
    rw [hrow]
    exact ⟨hplaced, ofPostfix_postorder hlists hbound⟩
  · rintro ⟨hplaced, hread⟩
    rcases hrow : ofTokens ts with e | row
    · rw [hrow] at hread
      cases hread
    rcases derives_of_placed hplaced (nested_of_ofTokens hrow) with ⟨y, hy⟩
    -- Within a bound that is large enough for both trees they are the same.
    rcases ofTokens_of_derives hy with ⟨row', hrow', hlists⟩
    rw [hrow, Except.ok.injEq] at hrow'
    have hready := ofPostfix_postorder (hrow' ▸ hlists) (Nat.le_max_right bound y.depth)
    rw [hrow] at hread
    rcases ofPostfix_within hread (Nat.le_max_left bound y.depth) with ⟨hdepth, hread'⟩
    have hxy : Except.ok x = (Except.ok y : Except EvalError Expr) := hread'.symm.trans hready
    rw [Except.ok.inj hxy] at hdepth ⊢
    exact ⟨hy, hdepth⟩

/-- `1 2 +` is read as the sum that `1 + 2` is, although no tree derives it. -/
theorem signBehindOperands_infix :
    (ofTokens [.num 1, .plus, .num 2] >>= Expr.ofPostfix 2) = .ok (.add (.rat 1) (.rat 2)) ∧
      (ofTokens [.num 1, .num 2, .plus] >>= Expr.ofPostfix 2) = .ok (.add (.rat 1) (.rat 2)) ∧
      ∀ x, ¬ Derives .sum [.num 1, .num 2, .plus] x := by
  refine ⟨by decide +kernel, by decide +kernel, fun x hx => ?_⟩
  exact absurd ((infix_iff_placed _ x x.depth).mp ⟨hx, Nat.le_refl _⟩).1 (by decide)

end Postfix

end ExactCalc
