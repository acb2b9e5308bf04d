import ExactCalc.Proofs.Postfix.Infix
import ExactCalc.Proofs.Readable

/-!
# Operands of Waiting Operators

Every operator that waits in the yard finds its operands.

What has gone out lists finished trees, one behind the other, and an operator
that waits takes some of them when it goes out. A sign, a function and a bracket
take in only what comes after them, an operator between two operands also the
tree before it; `Needs` counts those trees off from the last one back. Once the
operand of the operator on top has come, there is one tree more than the waiting
operators need, and the yard notes as much by `afterOperand`.

How tightly operators bind decides when they go out, and so which tree is built.
That a tree is built, from the names in the order in which they came, does not
depend on it: whenever an operator goes out it makes one tree of those that it
takes, and the names keep their order. Nothing below compares two precedences,
and the rows need not follow a grammar.

## Main definitions

* `Piled`: The finished trees that have gone out.
* `Needs`: Waiting operators have the trees before them that they take in.
* `Place`, `Stands`: Where in a row the yard stands.
* `Leads`: What a row of tokens does wherever the yard stands so.

## Theorems

* `pop`: An operator that goes out makes one tree of those that it takes.
* `leads_send`, `leads_call`, `leads_opening`, `leads_sign`, `leads_operator`,
  `leads_closing`: What one token does.
* `Leads.append`: One row after the other.
* `ofTokens_of_leads`: A row that ends behind an operand, with every bracket
  closed, is rearranged into the listing of a tree with those names.
-/

namespace ExactCalc

namespace Postfix

/-- What has gone out, last first, lists finished trees, the last one first. -/
inductive Piled : List Token → List Expr → Prop where
  | nil : Piled [] []
  | cons {row out : List Token} {x : Expr} {xs : List Expr} (hrow : Postorder row x)
      (h : Piled out xs) : Piled (row.reverse ++ out) (x :: xs)

/-- The operators that wait, last first, have the trees before them that they take
    in: an operator between two operands one, any other none. -/
inductive Needs : List Token → List Expr → Prop where
  | nil : Needs [] []
  | unary {w : Token} {ws : List Token} {xs : List Expr}
      (hw : w = .neg ∨ w = .lparen ∨ isFunction w = true) (h : Needs ws xs) :
      Needs (w :: ws) xs
  | binary {w : Token} {ws : List Token} {x : Expr} {xs : List Expr}
      (hw : isOperator w = true) (h : Needs ws xs) : Needs (w :: ws) (x :: xs)

/-- The names in finished trees, the last tree first, from left to right. -/
def namesOf : List Expr → List String
  | [] => []
  | x :: xs => namesOf xs ++ x.names

/-- A place in a row of tokens. -/
structure Place where
  /-- Whether an operand has just ended. -/
  afterOperand : Bool
  /-- How many brackets are open. -/
  openings : Nat
  /-- The names so far, as often as they occur. -/
  names : List String

/-- Where the yard stands: before an operand, or behind one that has gone out on
    top of what the waiting operators take. -/
inductive Stands : Yard → Place → Prop where
  | behind {out waiting : List Token} {x : Expr} {xs : List Expr} (hout : Piled out (x :: xs))
      (hneeds : Needs waiting xs) :
      Stands ⟨out, waiting, true⟩ ⟨true, waiting.count .lparen, namesOf (x :: xs)⟩
  | before {out waiting : List Token} {xs : List Expr} (hout : Piled out xs)
      (hneeds : Needs waiting xs) :
      Stands ⟨out, waiting, false⟩ ⟨false, waiting.count .lparen, namesOf xs⟩

/-- A row of tokens takes the yard from one place to another, whatever has gone
    out and waits. -/
def Leads (ts : List Token) (p p' : Place) : Prop :=
  ∀ y, Stands y p → ∃ y', Yard.run y ts = .ok y' ∧ Stands y' p'

@[simp, grind =]
theorem names_call (name : String) (x : Expr) : (Expr.call name x).names = x.names := by
  unfold Expr.call
  split <;> rfl

@[simp, grind =] theorem names_operation (t : Token) (a b : Expr) :
    (Expr.operation t a b).names = a.names ++ b.names := by
  unfold Expr.operation
  split <;> rfl

theorem not_lparen_of_isFunction {t : Token} (h : isFunction t = true) : t ≠ .lparen := by
  intro ht
  rw [ht] at h
  exact absurd h Bool.false_ne_true

theorem not_lparen_of_isOperator {t : Token} (h : isOperator t = true) : t ≠ .lparen := by
  intro ht
  rw [ht] at h
  exact absurd h Bool.false_ne_true

/-- Whatever arrives, an opening bracket stays. -/
theorem not_lparen_of_leaves {t w : Token} (ht : isOperator t = true)
    (h : leaves t w = true) : w ≠ .lparen := by
  intro hw
  rw [hw] at h
  cases t with
  | plus | minus | star | slash | caret => exact absurd h (by decide)
  | _ => exact absurd ht Bool.false_ne_true

section Going

variable {t w : Token} {out ws : List Token} {a b x : Expr} {xs : List Expr}

/-- A sign takes in the last tree. -/
theorem Piled.negative (h : Piled out (x :: xs)) : Piled (.neg :: out) (.sub (.rat 0) x :: xs) := by
  rcases h with _ | ⟨hrow, hout⟩
  have hpiled := Piled.cons (.negative hrow) hout
  rw [List.reverse_append] at hpiled
  exact hpiled

/-- A function takes in the last tree. -/
theorem Piled.call {name : String} (hname : isFunctionName name = true)
    (h : Piled out (x :: xs)) : Piled (.ident name :: out) (.call name x :: xs) := by
  rcases h with _ | ⟨hrow, hout⟩
  have hpiled := Piled.cons (.call hname hrow) hout
  rw [List.reverse_append] at hpiled
  exact hpiled

/-- An operator takes in the last two trees, the last one as its second operand. -/
theorem Piled.operation (ht : isOperator t = true) (h : Piled out (b :: a :: xs)) :
    Piled (t :: out) (.operation t a b :: xs) := by
  rcases h with _ | ⟨hright, _ | ⟨hleft, hout⟩⟩
  have hpiled := Piled.cons (.operation ht hleft hright) hout
  rw [List.reverse_append, List.reverse_append, List.append_assoc, List.append_assoc] at hpiled
  exact hpiled

/-- An operator that goes out makes one tree of those that it takes. -/
theorem pop (hw : w ≠ .lparen) (hout : Piled out (x :: xs)) (hneeds : Needs (w :: ws) xs) :
    ∃ y ys, Piled (w :: out) (y :: ys) ∧ Needs ws ys ∧ namesOf (y :: ys) = namesOf (x :: xs) := by
  cases hneeds with
  | unary hunary hneeds =>
      -- The last tree is all that a sign or a function takes.
      rcases hunary with rfl | rfl | hfun
      · exact ⟨_, _, hout.negative, hneeds, rfl⟩
      · exact absurd rfl hw
      · cases w with
        | ident name =>
            refine ⟨_, _, hout.call hfun, hneeds, ?_⟩
            rw [namesOf, namesOf, names_call]
        | _ => exact absurd hfun Bool.false_ne_true
  | binary hoperator hneeds =>
      -- The tree before is the first operand, so its names come first.
      refine ⟨_, _, hout.operation hoperator, hneeds, ?_⟩
      rw [namesOf, namesOf, namesOf, names_operation, List.append_assoc]

/-- The operators that leave before another one make one tree. -/
theorem release_piled (ht : isOperator t = true) (hout : Piled out (x :: xs))
    (hneeds : Needs ws xs) :
    ∃ y ys, Piled (Yard.release t out ws).1 (y :: ys) ∧ Needs (Yard.release t out ws).2 ys ∧
      namesOf (y :: ys) = namesOf (x :: xs) ∧
      (Yard.release t out ws).2.count .lparen = ws.count .lparen := by
  -- The induction is on the operators that wait; what is out changes with each of them.
  induction ws generalizing out x xs with
  | nil => exact ⟨x, xs, hout, hneeds, rfl, rfl⟩
  | cons w ws ih =>
      rw [Yard.release]
      by_cases hleaves : leaves t w = true
      · have hw := not_lparen_of_leaves ht hleaves
        rcases pop hw hout hneeds with ⟨y, ys, hout', hneeds', hnames⟩
        rcases ih hout' hneeds' with ⟨z, zs, hz, hzs, hnames', hcount⟩
        rw [if_pos hleaves, List.count_cons_of_ne hw]
        exact ⟨z, zs, hz, hzs, hnames'.trans hnames, hcount⟩
      · rw [if_neg hleaves]
        exact ⟨x, xs, hout, hneeds, rfl, rfl⟩

/-- The operators back to an opening bracket make one tree. -/
theorem releaseGroup_piled {n : Nat} (hout : Piled out (x :: xs)) (hneeds : Needs ws xs)
    (hn : ws.count .lparen = n + 1) :
    ∃ out' ws' y ys, Yard.releaseGroup out ws = some (out', ws') ∧ Piled out' (y :: ys) ∧
      Needs ws' ys ∧ namesOf (y :: ys) = namesOf (x :: xs) ∧ ws'.count .lparen = n := by
  induction ws generalizing out x xs with
  | nil => exact absurd hn (Nat.succ_ne_zero n).symm
  | cons w ws ih =>
      rw [Yard.releaseGroup]
      by_cases hw : w = .lparen
      · -- The bracket disappears, and what it held back is needed by nothing in the group.
        rw [hw, List.count_cons_self, Nat.add_right_cancel_iff] at hn
        rw [if_pos hw]
        cases hneeds with
        | unary _ hneeds => exact ⟨out, ws, x, xs, rfl, hout, hneeds, rfl, hn⟩
        | binary hoperator => exact absurd hw (not_lparen_of_isOperator hoperator)
      · rcases pop hw hout hneeds with ⟨y, ys, hout', hneeds', hnames⟩
        rw [List.count_cons_of_ne hw] at hn
        rcases ih hout' hneeds' hn with ⟨out'', ws', z, zs, hgroup, hz, hzs, hnames', hcount⟩
        rw [if_neg hw]
        exact ⟨out'', ws', z, zs, hgroup, hz, hzs, hnames'.trans hnames, hcount⟩

/-- All that waits makes one tree, if no bracket is among it. -/
theorem drain_piled (hout : Piled out (x :: xs)) (hneeds : Needs ws xs)
    (hn : ws.count .lparen = 0) :
    ∃ row y, Yard.drain out ws = .ok row.reverse ∧ Postorder row y ∧
      y.names = namesOf (x :: xs) := by
  induction ws generalizing out x xs with
  | nil =>
      -- Nothing is needed any more, so the one tree is all there is.
      cases hneeds with
      | nil =>
          rcases hout with _ | ⟨hrow, _ | _⟩
          exact ⟨_, x, by rw [Yard.drain, List.append_nil], hrow, rfl⟩
  | cons w ws ih =>
      have hw : w ≠ .lparen := by
        intro hw
        rw [hw, List.count_cons_self] at hn
        exact absurd hn (Nat.succ_ne_zero _)
      rcases pop hw hout hneeds with ⟨y, ys, hout', hneeds', hnames⟩
      rw [List.count_cons_of_ne hw] at hn
      rcases ih hout' hneeds' hn with ⟨row, z, hdrain, hrow, hnames'⟩
      rw [Yard.drain, if_neg hw]
      exact ⟨row, z, hdrain, hrow, hnames'.trans hnames⟩

end Going

section Leading

variable {t : Token} {ts ts' : List Token} {p p' p'' : Place} {n : Nat} {us : List String}

theorem leads_nil (p : Place) : Leads [] p p :=
  fun y hy => ⟨y, rfl, hy⟩

theorem Leads.append (h : Leads ts p p') (h' : Leads ts' p' p'') : Leads (ts ++ ts') p p'' := by
  intro y hy
  rcases h y hy with ⟨z, hrun, hz⟩
  rcases h' z hz with ⟨z', hrun', hz'⟩
  exact ⟨z', by rw [run_append ts' hrun, hrun'], hz'⟩

theorem leads_of_step (h : ∀ y, Stands y p → ∃ y', y.step t = .ok y' ∧ Stands y' p') :
    Leads [t] p p' := by
  intro y hy
  rcases h y hy with ⟨y', hstep, hy'⟩
  refine ⟨y', ?_, hy'⟩
  rw [Yard.run, hstep]
  rfl

/-- An operand of one token ends where it stands. -/
theorem leads_send {x : Expr} (ht : Postorder [t] x)
    (hstep : ∀ y : Yard, y.step t = .ok (y.send t)) :
    Leads [t] ⟨false, n, us⟩ ⟨true, n, us ++ x.names⟩ := by
  refine leads_of_step (fun y hy => ⟨_, hstep y, ?_⟩)
  cases hy with
  | before hout hneeds => exact .behind (.cons ht hout) hneeds

theorem leads_call {name : String} (hname : isFunctionName name = true) :
    Leads [.ident name] ⟨false, n, us⟩ ⟨false, n, us⟩ := by
  refine leads_of_step (fun y hy => ⟨y.wait (.ident name), ?_, ?_⟩)
  · rw [Yard.step, if_pos hname]
  · cases hy with
    | @before out waiting xs hout hneeds =>
        have hfun : isFunction (.ident name) = true := hname
        rw [← List.count_cons_of_ne (l := waiting) (not_lparen_of_isFunction hfun)]
        exact .before hout (.unary (.inr (.inr hfun)) hneeds)

theorem leads_opening : Leads [.lparen] ⟨false, n, us⟩ ⟨false, n + 1, us⟩ := by
  refine leads_of_step (fun y hy => ⟨y.wait .lparen, rfl, ?_⟩)
  cases hy with
  | before hout hneeds =>
      rw [← List.count_cons_self]
      exact .before hout (.unary (.inr (.inl rfl)) hneeds)

/-- The sign of an operand waits for it, or counts for nothing. -/
theorem leads_sign (ht : t = .plus ∨ t = .minus) :
    Leads [t] ⟨false, n, us⟩ ⟨false, n, us⟩ := by
  rcases ht with rfl | rfl
  · refine leads_of_step (fun y hy => ⟨y, ?_, hy⟩)
    cases hy
    rfl
  · refine leads_of_step (fun y hy => ?_)
    cases hy with
    | @before out waiting xs hout hneeds =>
        have hneg : Token.neg ≠ .lparen := by decide
        rw [← List.count_cons_of_ne (l := waiting) hneg]
        exact ⟨_, rfl, .before hout (.unary (.inl rfl) hneeds)⟩

/-- Between two operands an operator takes the first and waits for the second. -/
theorem leads_operator (ht : isOperator t = true) :
    Leads [t] ⟨true, n, us⟩ ⟨false, n, us⟩ := by
  refine leads_of_step (fun y hy => ?_)
  cases hy with
  | @behind out waiting x xs hout hneeds =>
      have hstep : Yard.step ⟨out, waiting, true⟩ t =
          .ok (Yard.operate ⟨out, waiting, true⟩ t) := by
        cases t with
        | plus | minus | star | slash | caret => rfl
        | _ => exact absurd ht Bool.false_ne_true
      rcases release_piled ht hout hneeds with ⟨y, ys, hout', hneeds', hnames, hcount⟩
      refine ⟨_, hstep, ?_⟩
      rw [← hnames, ← hcount, ← List.count_cons_of_ne (not_lparen_of_isOperator ht)]
      exact .before hout' (.binary ht hneeds')

/-- A closing bracket ends an operand, and the function in front of its group
    with it. -/
theorem leads_closing : Leads [.rparen] ⟨true, n + 1, us⟩ ⟨true, n, us⟩ := by
  refine leads_of_step (fun y hy => ?_)
  generalize hp : Place.mk true (n + 1) us = p at hy
  cases hy with
  | before =>
      exact absurd (congrArg Place.afterOperand hp)
        (by simp only [Bool.true_eq_false, not_false_eq_true])
  | @behind out waiting x xs hout hneeds =>
      rw [Place.mk.injEq] at hp
      rcases hp with ⟨-, hn, hus⟩
      rcases releaseGroup_piled hout hneeds hn.symm with
        ⟨out', ws, z, zs, hgroup, hout', hneeds', hnames, hcount⟩
      rw [hus, ← hnames, ← hcount]
      -- A function in front of the group goes out with its bracket; nothing else does.
      rcases ws with _ | ⟨f, ws⟩
      · have hnone : ∀ w ∈ ([] : List Token).head?, isFunction w = false :=
          fun w hw => absurd hw (Option.not_mem_none w)
        exact ⟨_, close_of_not_isFunction hgroup hnone, .behind hout' hneeds'⟩
      by_cases hf : isFunction f = true
      · have hf' := not_lparen_of_isFunction hf
        rcases pop hf' hout' hneeds' with ⟨u, vs, hout'', hneeds'', hnames'⟩
        rw [← hnames', List.count_cons_of_ne hf']
        exact ⟨_, close_of_isFunction hgroup hf, .behind hout'' hneeds''⟩
      · have hnone : ∀ w ∈ (f :: ws).head?, isFunction w = false := by
          intro w hw
          rw [List.head?_cons, Option.mem_some_iff] at hw
          rw [← hw, ← Bool.not_eq_true]
          exact hf
        exact ⟨_, close_of_not_isFunction hgroup hnone, .behind hout' hneeds'⟩

/-- A row that ends behind an operand, with every bracket closed, is rearranged
    into the listing of a tree with the names of the row. -/
theorem ofTokens_of_leads (h : Leads ts ⟨false, 0, []⟩ ⟨true, 0, us⟩) :
    ∃ row e, ofTokens ts = .ok row ∧ Postorder row e ∧ e.names = us := by
  rcases h .empty (.before .nil .nil) with ⟨y, hrun, hy⟩
  generalize hp : Place.mk true 0 us = p at hy
  cases hy with
  | before =>
      exact absurd (congrArg Place.afterOperand hp)
        (by simp only [Bool.true_eq_false, not_false_eq_true])
  | behind hout hneeds =>
      rw [Place.mk.injEq] at hp
      rcases hp with ⟨-, hn, hus⟩
      rcases drain_piled hout hneeds hn.symm with ⟨row, e, hdrain, hrow, hnames⟩
      refine ⟨row, e, ?_, hrow, hnames.trans hus.symm⟩
      rw [ofTokens, hrun]
      simp only [hdrain, Except.map, List.reverse_reverse]

end Leading

end Postfix

end ExactCalc
