import ExactCalc.Expr

/-!
# Postorder Rows

Which rows of tokens list a tree from its leaves up, and that building a tree
from such a row gives the tree back.

A row in postfix order needs no brackets, but it is not quite a function of the
tree: a difference from zero can be listed as a difference, with the zero
written out, or as a sign. `Postorder` is therefore a relation.

The builder keeps a stack of finished trees. A row that lists a tree pushes that
tree and touches nothing below, whatever the stack and whatever follows; stated
that way the fact goes through by induction on the listing, because a longer
row is shorter ones run one after the other.

## Main definitions

* `isOperator`: The signs between two operands.
* `Postorder`: A row lists a tree.

## Theorems

* `reduceAll_postorder`: A row that lists a tree pushes it on the stack.
* `ofPostfix_postorder`: The tree of a row that lists one.
-/

namespace ExactCalc

namespace Postfix

/-- The signs between two operands. -/
def isOperator : Token → Bool
  | .plus | .minus | .star | .slash | .caret => true
  | _ => false

/-- A row of tokens lists a tree from its leaves up. -/
inductive Postorder : List Token → Expr → Prop where
  | number (q : Rat) : Postorder [.num q] (.rat q)
  | pi : Postorder [.pi] .pi
  | named {name : String} (h : isFunctionName name = false) :
      Postorder [.ident name] (.var name)
  | call {row : List Token} {x : Expr} {name : String} (h : isFunctionName name = true)
      (hx : Postorder row x) : Postorder (row ++ [.ident name]) (.call name x)
  | negative {row : List Token} {x : Expr} (hx : Postorder row x) :
      Postorder (row ++ [.neg]) (.sub (.rat 0) x)
  | operation {as bs : List Token} {a b : Expr} {t : Token} (h : isOperator t = true)
      (ha : Postorder as a) (hb : Postorder bs b) :
      Postorder (as ++ (bs ++ [t])) (.operation t a b)

@[simp, grind =]
theorem depth_call (name : String) (x : Expr) : (Expr.call name x).depth = x.depth + 1 := by
  unfold Expr.call
  by_cases h : name = "abs"
  · rw [if_pos h, Expr.depth]
  · rw [if_neg h, Expr.depth]

@[simp, grind =] theorem depth_operation (t : Token) (a b : Expr) :
    (Expr.operation t a b).depth = max a.depth b.depth + 1 := by
  unfold Expr.operation
  split <;> rfl

theorem depth_negative (x : Expr) : (Expr.sub (.rat 0) x).depth = x.depth + 1 := by
  have hx := x.depth_pos
  simp only [Expr.depth]
  omega

/-- One token that makes a tree within the bound goes on the stack. -/
theorem reduceAll_cons {bound : Nat} {stack rest : List (Expr × Nat)} {t : Token}
    {top : Expr × Nat} (ts : List Token) (h : Expr.reduce stack t = .ok (top, rest))
    (hb : top.2 ≤ bound) :
    Expr.reduceAll bound stack (t :: ts) = Expr.reduceAll bound (top :: rest) ts := by
  rw [Expr.reduceAll, h]
  simp only
  rw [if_neg (by omega)]

theorem reduce_named {name : String} (h : isFunctionName name = false)
    (stack : List (Expr × Nat)) :
    Expr.reduce stack (.ident name) = .ok ((.var name, 1), stack) := by
  simp only [Expr.reduce, h, Bool.false_eq_true, if_false]

theorem reduce_call {name : String} (h : isFunctionName name = true) (x : Expr) (d : Nat)
    (stack : List (Expr × Nat)) :
    Expr.reduce ((x, d) :: stack) (.ident name) = .ok ((.call name x, d + 1), stack) := by
  simp only [Expr.reduce, h, if_true]

theorem reduce_operation {t : Token} (h : isOperator t = true) (a b : Expr) (da db : Nat)
    (stack : List (Expr × Nat)) :
    Expr.reduce ((b, db) :: (a, da) :: stack) t =
      .ok ((.operation t a b, max da db + 1), stack) := by
  cases t with
  | plus | minus | star | slash | caret => rfl
  | _ => exact absurd h Bool.false_ne_true

/-- A row that lists a tree pushes it on the stack, its depth beside it. -/
theorem reduceAll_postorder {row : List Token} {x : Expr} (h : Postorder row x) (bound : Nat) :
    ∀ (stack : List (Expr × Nat)) (rest : List Token), x.depth ≤ bound →
      Expr.reduceAll bound stack (row ++ rest) =
        Expr.reduceAll bound ((x, x.depth) :: stack) rest := by
  -- A subtree is less deep than the tree, so the bound is never passed on the way.
  induction h with
  | number q => exact fun stack rest hb => reduceAll_cons rest rfl hb
  | pi => exact fun stack rest hb => reduceAll_cons rest rfl hb
  | named hname => exact fun stack rest hb => reduceAll_cons rest (reduce_named hname stack) hb
  | @call row x name hname hx ih =>
      intro stack rest hb
      rw [depth_call] at hb
      rw [List.append_assoc, ih stack _ (by omega), List.singleton_append, depth_call]
      exact reduceAll_cons rest (reduce_call hname x x.depth stack) hb
  | @negative row x hx ih =>
      intro stack rest hb
      rw [depth_negative] at hb
      rw [List.append_assoc, ih stack _ (by omega), List.singleton_append, depth_negative]
      exact reduceAll_cons rest rfl hb
  | @operation as bs a b t ht ha hb iha ihb =>
      intro stack rest hbound
      rw [depth_operation] at hbound
      rw [List.append_assoc, List.append_assoc, iha stack _ (by omega), ihb _ _ (by omega),
        List.singleton_append, depth_operation]
      exact reduceAll_cons rest (reduce_operation ht a b a.depth b.depth stack) hbound

/-- The tree of a row that lists one, within any bound that it fits. -/
theorem ofPostfix_postorder {row : List Token} {x : Expr} (h : Postorder row x) {bound : Nat}
    (hb : x.depth ≤ bound) : Expr.ofPostfix bound row = .ok x := by
  have hrun := reduceAll_postorder h bound [] [] hb
  rw [List.append_nil] at hrun
  rw [Expr.ofPostfix, hrun]
  rfl

end Postfix

end ExactCalc
