import ExactCalc.Proofs.Postfix.Placed

/-!
# Rows That Are Read

The rows in postfix order that are read as a tree are the listings of that tree,
and a listing fails for its depth alone.

`Postorder` describes listings through the functions that the builder itself
applies. `Lists` says the same with one clause for each kind of tree and each
token written out, so that what is accepted can be read without the builder.

The builder looks at one token at a time and keeps the trees built so far. What
it has consumed is at every moment the listings of those trees, one behind the
other, which is what `Piled` says of a row read backwards; an operator takes the
listings of its operands together. So where one tree is left in the end, the
whole row lists it.

A tree deeper than the bound has a first subtree that is too deep in the order of
its listing. Everything before that subtree fits and is built, and the token that
would complete it is refused. No other failure can come first, since every token
of a listing finds its operands.

## Main definitions

* `Lists`: A row lists a tree, clause by clause.

## Theorems

* `lists_iff_postorder`: The two descriptions of a listing agree.
* `reduce_piled`, `reduceAll_piled`: What is consumed lists the trees built.
* `reduceAll_tooDeep`: A listing of a tree that is too deep is refused.
* `ofPostfix_iff_lists`: What is accepted, and when the depth is at fault.
-/

namespace ExactCalc

namespace Postfix

/-- A row of tokens lists a tree: the listings of its operands, from left to
    right, and then what is done with them. A difference from zero may also be
    listed as the sign of its second operand. -/
inductive Lists : List Token → Expr → Prop where
  | number (q : Rat) : Lists [.num q] (.rat q)
  | pi : Lists [.pi] .pi
  | named {name : String} (hsqrt : name ≠ "sqrt") (habs : name ≠ "abs") :
      Lists [.ident name] (.var name)
  | sqrt {row : List Token} {x : Expr} (hx : Lists row x) :
      Lists (row ++ [.ident "sqrt"]) (.sqrt x)
  | abs {row : List Token} {x : Expr} (hx : Lists row x) : Lists (row ++ [.ident "abs"]) (.abs x)
  | negative {row : List Token} {x : Expr} (hx : Lists row x) :
      Lists (row ++ [.neg]) (.sub (.rat 0) x)
  | add {as bs : List Token} {a b : Expr} (ha : Lists as a) (hb : Lists bs b) :
      Lists (as ++ (bs ++ [.plus])) (.add a b)
  | sub {as bs : List Token} {a b : Expr} (ha : Lists as a) (hb : Lists bs b) :
      Lists (as ++ (bs ++ [.minus])) (.sub a b)
  | mul {as bs : List Token} {a b : Expr} (ha : Lists as a) (hb : Lists bs b) :
      Lists (as ++ (bs ++ [.star])) (.mul a b)
  | div {as bs : List Token} {a b : Expr} (ha : Lists as a) (hb : Lists bs b) :
      Lists (as ++ (bs ++ [.slash])) (.div a b)
  | pow {as bs : List Token} {a b : Expr} (ha : Lists as a) (hb : Lists bs b) :
      Lists (as ++ (bs ++ [.caret])) (.pow a b)

@[simp] theorem isFunctionName_iff {name : String} :
    isFunctionName name = true ↔ name = "sqrt" ∨ name = "abs" := by
  have hsqrt : "sqrt".toList = ['s', 'q', 'r', 't'] := rfl
  have habs : "abs".toList = ['a', 'b', 's'] := rfl
  rw [isFunctionName, List.contains_iff_mem, functionNames, List.mem_pair, ← hsqrt, ← habs,
    String.toList_inj, String.toList_inj]

theorem postorder_of_lists {row : List Token} {x : Expr} (h : Lists row x) : Postorder row x := by
  induction h with
  | number q => exact .number q
  | pi => exact .pi
  | named hsqrt habs =>
      refine .named (Bool.eq_false_iff.mpr fun hname => ?_)
      exact (isFunctionName_iff.mp hname).elim hsqrt habs
  | sqrt _ ih => exact .call (isFunctionName_iff.mpr (.inl rfl)) ih
  | abs _ ih => exact .call (isFunctionName_iff.mpr (.inr rfl)) ih
  | negative _ ih => exact .negative ih
  | add _ _ iha ihb => exact .operation (t := .plus) rfl iha ihb
  | sub _ _ iha ihb => exact .operation (t := .minus) rfl iha ihb
  | mul _ _ iha ihb => exact .operation (t := .star) rfl iha ihb
  | div _ _ iha ihb => exact .operation (t := .slash) rfl iha ihb
  | pow _ _ iha ihb => exact .operation (t := .caret) rfl iha ihb

theorem lists_of_postorder {row : List Token} {x : Expr} (h : Postorder row x) : Lists row x := by
  induction h with
  | number q => exact .number q
  | pi => exact .pi
  | named hname =>
      refine .named ?_ ?_ <;> rintro rfl
      · exact absurd (isFunctionName_iff.mpr (.inl rfl)) (by rw [hname]; exact Bool.false_ne_true)
      · exact absurd (isFunctionName_iff.mpr (.inr rfl)) (by rw [hname]; exact Bool.false_ne_true)
  | call hname _ ih =>
      rcases isFunctionName_iff.mp hname with rfl | rfl
      · exact .sqrt ih
      · exact .abs ih
  | negative _ ih => exact .negative ih
  | @operation as bs a b t ht _ _ iha ihb =>
      cases t with
      | plus => exact .add iha ihb
      | minus => exact .sub iha ihb
      | star => exact .mul iha ihb
      | slash => exact .div iha ihb
      | caret => exact .pow iha ihb
      | _ => exact absurd ht Bool.false_ne_true

theorem lists_iff_postorder {row : List Token} {x : Expr} : Lists row x ↔ Postorder row x :=
  ⟨postorder_of_lists, lists_of_postorder⟩

section Consumed

variable {bound : Nat} {stack stack' rest : List (Expr × Nat)} {row out : List Token} {t : Token}
  {top : Expr × Nat} {x : Expr}

/-- With one more token, what is consumed still lists the trees that are built. -/
theorem reduce_piled (h : Expr.reduce stack t = .ok (top, rest))
    (hout : Piled out (stack.map Prod.fst)) : Piled (t :: out) ((top :: rest).map Prod.fst) := by
  -- A value begins a listing of its own; any other token ends one that has its operands in it.
  cases t with
  | num q =>
      simp only [Expr.reduce, Except.ok.injEq, Prod.mk.injEq] at h
      rw [← h.1, ← h.2]
      exact .cons (.number q) hout
  | pi =>
      simp only [Expr.reduce, Except.ok.injEq, Prod.mk.injEq] at h
      rw [← h.1, ← h.2]
      exact .cons .pi hout
  | neg =>
      rcases stack with _ | ⟨⟨a, da⟩, stack⟩
      · cases h
      · simp only [Expr.reduce, Except.ok.injEq, Prod.mk.injEq] at h
        rw [← h.1, ← h.2]
        exact hout.negative
  | plus | minus | star | slash | caret =>
      rcases stack with _ | ⟨⟨b, db⟩, _ | ⟨⟨a, da⟩, stack⟩⟩
      · cases h
      · cases h
      · simp only [Expr.reduce, Except.ok.injEq, Prod.mk.injEq] at h
        rw [← h.1, ← h.2]
        exact Piled.operation rfl hout
  | ident name =>
      simp only [Expr.reduce] at h
      by_cases hname : isFunctionName name = true
      · rw [if_pos hname] at h
        rcases stack with _ | ⟨⟨a, da⟩, stack⟩
        · cases h
        · simp only [Except.ok.injEq, Prod.mk.injEq] at h
          rw [← h.1, ← h.2]
          exact hout.call hname
      · rw [if_neg hname, Except.ok.injEq, Prod.mk.injEq] at h
        rw [← h.1, ← h.2]
        exact .cons (.named (Bool.eq_false_iff.mpr hname)) hout
  | lparen | rparen => cases h

/-- What is consumed of a row lists the trees that are built. -/
theorem reduceAll_piled (h : Expr.reduceAll bound stack row = .ok stack')
    (hout : Piled out (stack.map Prod.fst)) :
    Piled (row.reverse ++ out) (stack'.map Prod.fst) := by
  induction row generalizing stack out with
  | nil =>
      rw [Expr.reduceAll, Except.ok.injEq] at h
      rw [← h]
      exact hout
  | cons t row ih =>
      rw [Expr.reduceAll] at h
      rcases hred : Expr.reduce stack t with e | ⟨top, rest⟩
      · rw [hred] at h
        cases h
      rw [hred] at h
      simp only at h
      by_cases htop : top.2 > bound
      · rw [if_pos htop] at h
        cases h
      rw [if_neg htop] at h
      rw [List.reverse_cons, List.append_assoc]
      exact ih h (reduce_piled hred hout)

/-- A row that is read as a tree lists it. -/
theorem postorder_of_ofPostfix (h : Expr.ofPostfix bound row = .ok x) : Postorder row x := by
  rw [Expr.ofPostfix] at h
  rcases hrun : Expr.reduceAll bound [] row with e | stack
  · rw [hrun] at h
    cases h
  rw [hrun] at h
  have hpiled : Piled (row.reverse ++ []) (stack.map Prod.fst) := reduceAll_piled hrun .nil
  rcases stack with _ | ⟨⟨y, d⟩, _ | ⟨p, stack⟩⟩
  · cases h
  · -- One tree is left, so there is one listing and nothing in front of it.
    rw [Except.ok.injEq] at h
    rw [List.append_nil, List.map_singleton, h] at hpiled
    generalize hrow : row.reverse = back at hpiled
    rcases hpiled with _ | ⟨hx, _ | _⟩
    rw [List.append_nil, List.reverse_inj] at hrow
    rw [hrow]
    exact hx
  · cases h

end Consumed

/-- A token that would complete a tree beyond the bound is refused. -/
theorem reduceAll_refused {bound : Nat} {stack rest : List (Expr × Nat)} {t : Token}
    {top : Expr × Nat} (ts : List Token) (h : Expr.reduce stack t = .ok (top, rest))
    (hb : bound < top.2) : Expr.reduceAll bound stack (t :: ts) = .error .tooComplex := by
  rw [Expr.reduceAll, h]
  simp only
  rw [if_pos hb]

/-- A row that lists a tree beyond the bound is refused for its depth, whatever the
    stack and whatever follows. -/
theorem reduceAll_tooDeep {row : List Token} {x : Expr} (h : Postorder row x) {bound : Nat} :
    ∀ (stack : List (Expr × Nat)) (rest : List Token), bound < x.depth →
      Expr.reduceAll bound stack (row ++ rest) = .error .tooComplex := by
  -- Either an operand is too deep itself, or all are built and the last token is one too many.
  induction h with
  | number q => exact fun stack rest hb => reduceAll_refused rest rfl hb
  | pi => exact fun stack rest hb => reduceAll_refused rest rfl hb
  | named hname => exact fun stack rest hb => reduceAll_refused rest (reduce_named hname stack) hb
  | @call row x name hname hx ih =>
      intro stack rest hb
      rw [depth_call] at hb
      rw [List.append_assoc]
      by_cases hdeep : bound < x.depth
      · exact ih stack _ hdeep
      · rw [reduceAll_postorder hx bound stack _ (Nat.not_lt.mp hdeep)]
        exact reduceAll_refused rest (reduce_call hname x x.depth stack) hb
  | @negative row x hx ih =>
      intro stack rest hb
      rw [depth_negative] at hb
      rw [List.append_assoc]
      by_cases hdeep : bound < x.depth
      · exact ih stack _ hdeep
      · rw [reduceAll_postorder hx bound stack _ (Nat.not_lt.mp hdeep)]
        exact reduceAll_refused rest rfl hb
  | @operation as bs a b t ht ha hb iha ihb =>
      intro stack rest hbound
      rw [depth_operation] at hbound
      rw [List.append_assoc, List.append_assoc]
      by_cases hleft : bound < a.depth
      · exact iha stack _ hleft
      rw [reduceAll_postorder ha bound stack _ (Nat.not_lt.mp hleft)]
      by_cases hright : bound < b.depth
      · exact ihb _ _ hright
      rw [reduceAll_postorder hb bound _ _ (Nat.not_lt.mp hright)]
      exact reduceAll_refused rest (reduce_operation ht a b a.depth b.depth stack) hbound

/-- A row is read as a tree just when it lists that tree and the tree fits into the
    bound. The listing of a tree that does not fit is refused as too complex. -/
theorem ofPostfix_iff_lists (row : List Token) (x : Expr) (bound : Nat) :
    (Expr.ofPostfix bound row = .ok x ↔ Lists row x ∧ x.depth ≤ bound) ∧
      (Lists row x → bound < x.depth → Expr.ofPostfix bound row = .error .tooComplex) := by
  refine ⟨⟨fun h => ?_, fun ⟨hx, hb⟩ => ?_⟩, fun hx hb => ?_⟩
  · exact ⟨lists_iff_postorder.mpr (postorder_of_ofPostfix h),
      (ofPostfix_within h (Nat.le_refl _)).1⟩
  · exact ofPostfix_postorder (lists_iff_postorder.mp hx) hb
  · have hrun := reduceAll_tooDeep (lists_iff_postorder.mp hx) [] [] hb
    rw [List.append_nil] at hrun
    rw [Expr.ofPostfix, hrun]

/-- The row `x neg abs 0 y - *`, in which one difference from zero is a sign and the
    other is written out. -/
def signAndZero : List Token :=
  [.ident "x", .neg, .ident "abs", .num 0, .ident "y", .minus, .star]

/-- The tree of `|-x|*(0-y)`. -/
def signAndZeroTree : Expr :=
  .mul (.abs (.sub (.rat 0) (.var "x"))) (.sub (.rat 0) (.var "y"))

theorem ofPostfix_signAndZero : Lists signAndZero signAndZeroTree ∧ signAndZeroTree.depth = 4 ∧
    Expr.ofPostfix 4 signAndZero = .ok signAndZeroTree ∧
    Expr.ofPostfix 3 signAndZero = .error .tooComplex := by
  have hx : Lists [.ident "x"] (.var "x") := .named (by decide) (by decide)
  have hy : Lists [.ident "y"] (.var "y") := .named (by decide) (by decide)
  have h : Lists signAndZero signAndZeroTree := .mul (.abs (.negative hx)) (.sub (.number 0) hy)
  have hdepth : signAndZeroTree.depth = 4 := rfl
  refine ⟨h, hdepth, ?_, ?_⟩
  · exact (ofPostfix_iff_lists signAndZero signAndZeroTree 4).1.mpr ⟨h, hdepth.le⟩
  · exact (ofPostfix_iff_lists signAndZero signAndZeroTree 3).2 h (by omega)

end Postfix

end ExactCalc
