import ExactCalc.Proofs.Postfix.Placed

/-!
# Nothing Lost and Nothing Invented

What comes out of the yard is what went in, less the brackets and the signs that
count for nothing, whether or not the row makes sense.

A token that has gone into the yard is either out or waiting, and it leaves the
waiting ones from the last one back: at a closing bracket, behind a function, in
front of an operator, and at the end. None of these says which tokens there are.
So the row to look at is the one that would come out if every bracket closed at
once, first the tokens that are out and then the operators that wait. Sending out
waiting operators leaves that row as it is, token for token. What one more token
does is to put itself somewhere into it, and since only operators wait, no value
stands behind the place. From this follow both that the tokens are the same up to
their order, and that the values are in order.

The yard fails at brackets only. A closing bracket finds no opening one just when
the row so far has more closing brackets than opening ones, and an opening bracket
is left in the end just when the whole row has more of these.

## Main definitions

* `isValue`, `endsOperand`: Tokens that are values, and tokens behind which no
  operand is expected.
* `kept`, `keptAll`: What is left of a token and of a row.
* `Balanced`: The brackets of a row close.
* `Yard.pending`: What would come out if the brackets closed.
* `Inserted`: Tokens put into a row, behind all its values.

## Theorems

* `balanced_iff_nested`: Balanced brackets, by counting from the left.
* `pending_release`, `pending_releaseGroup`, `drain_eq_pending`: Sending operators
  out changes nothing.
* `step_inserted`, `run_inserted`: What one token and what a row of them adds.
* `ofTokens_of_nested`: The yard fails at brackets only.
* `ofTokens_conserves`: All that the yard does to the tokens of a row.
-/

namespace ExactCalc

namespace Postfix

/-- A number, `π` or a variable. -/
def isValue : Token → Bool
  | .num _ | .pi => true
  | .ident name => !isFunctionName name
  | _ => false

/-- Whether an operand ends with a token, so that none is expected behind it. -/
def endsOperand (t : Token) : Bool := isValue t || t == .rparen

/-- What is left of a token. A bracket disappears, and where an operand is expected
    a minus sign becomes the sign of that operand and a plus sign disappears. -/
def kept (afterOperand : Bool) : Token → List Token
  | .lparen | .rparen => []
  | .plus => if afterOperand then [.plus] else []
  | .minus => if afterOperand then [.minus] else [.neg]
  | t => [t]

/-- What is left of the tokens of a row, in the order of the row. An operand is
    expected behind every token with which none ends. -/
def keptAll (afterOperand : Bool) : List Token → List Token
  | [] => []
  | t :: ts => kept afterOperand t ++ keptAll (endsOperand t) ts

/-- With `n` brackets open, the brackets of a row close: at no place have more been
    closed than are open, and in the end all are closed. -/
structure Balanced (n : Nat) (ts : List Token) : Prop where
  closes : ∀ front, front <+: ts → front.count .rparen ≤ n + front.count .lparen
  settles : n + ts.count .lparen = ts.count .rparen

section Brackets

variable {t : Token} {ts row out ws : List Token} {y : Yard} {n m : Nat}

/-- A token in front of a row changes how many brackets are open behind it. -/
theorem balanced_cons (h : n + [t].count .lparen = m + [t].count .rparen) :
    Balanced n (t :: ts) ↔ Balanced m ts := by
  have hcount : ∀ u row, (t :: row).count u = [t].count u + row.count u := by
    intro u row
    rw [← List.count_append, List.singleton_append]
  have hopened := hcount .lparen ts
  have hclosed := hcount .rparen ts
  constructor
  · rintro ⟨hcloses, hsettles⟩
    refine ⟨fun front hfront => ?_, by omega⟩
    have hle := hcloses (t :: front) (List.cons_prefix_cons.mpr ⟨rfl, hfront⟩)
    rw [hcount .lparen front, hcount .rparen front] at hle
    omega
  · rintro ⟨hcloses, hsettles⟩
    refine ⟨fun front hfront => ?_, by omega⟩
    rcases List.prefix_cons_iff.mp hfront with rfl | ⟨rest, rfl, hrest⟩
    · exact Nat.zero_le _
    · have hle := hcloses rest hrest
      rw [hcount .lparen rest, hcount .rparen rest]
      omega

theorem balanced_iff_nested : Balanced n ts ↔ nested n ts = true := by
  induction ts generalizing n with
  | nil =>
      rw [nested, beq_iff_eq]
      refine ⟨fun h => h.settles, fun h => ⟨fun front hfront => ?_, h⟩⟩
      rw [List.prefix_nil.mp hfront]
      exact Nat.zero_le _
  | cons t ts ih =>
      cases t with
      | lparen => rw [balanced_cons (m := n + 1) rfl, ih, nested]
      | rparen =>
          cases n with
          | zero =>
              -- The bracket alone is a beginning with more closed than opened.
              refine ⟨fun h => ?_, fun h => absurd h Bool.false_ne_true⟩
              exact absurd (h.closes [.rparen] ⟨ts, rfl⟩) (by decide)
          | succ n => rw [balanced_cons (m := n) rfl, ih, nested]
      | num | pi | ident | plus | minus | neg | star | slash | caret =>
          rw [balanced_cons (m := n) rfl, ih]
          rfl

theorem exists_releaseGroup (h : 0 < ws.count .lparen) :
    ∃ out' ws', Yard.releaseGroup out ws = some (out', ws') := by
  induction ws generalizing out with
  | nil => exact absurd h (Nat.lt_irrefl 0)
  | cons w ws ih =>
      rw [Yard.releaseGroup]
      by_cases hw : w = .lparen
      · rw [if_pos hw]
        exact ⟨out, ws, rfl⟩
      · rw [if_neg hw]
        rw [List.count_cons_of_ne hw] at h
        exact ih h

/-- A closing bracket where none is open is the only token that is refused. -/
theorem exists_step (h : t = .rparen → 0 < y.waiting.count .lparen) :
    ∃ y', y.step t = .ok y' := by
  cases t with
  | rparen =>
      have hgroup : ∃ out ws, Yard.releaseGroup y.out y.waiting = some (out, ws) :=
        exists_releaseGroup (h rfl)
      rcases hgroup with ⟨out, ws, hgroup⟩
      rw [Yard.step, Yard.close, hgroup]
      rcases ws with _ | ⟨f, ws⟩
      · exact ⟨_, rfl⟩
      · simp only
        split <;> exact ⟨_, rfl⟩
  | num | pi | ident | lparen | plus | minus | neg | star | slash | caret => exact ⟨_, rfl⟩

theorem exists_run (h : nested (y.waiting.count .lparen) ts = true) :
    ∃ y', Yard.run y ts = .ok y' ∧ y'.waiting.count .lparen = 0 := by
  induction ts generalizing y with
  | nil =>
      rw [nested, beq_iff_eq] at h
      exact ⟨y, rfl, h⟩
  | cons t ts ih =>
      have hopen : t = .rparen → 0 < y.waiting.count .lparen := by
        rintro rfl
        by_contra hnone
        rw [Nat.eq_zero_of_not_pos hnone] at h
        exact absurd h Bool.false_ne_true
      rcases exists_step hopen with ⟨z, hstep⟩
      rw [nested_step hstep] at h
      rcases ih h with ⟨y', hrun, hend⟩
      refine ⟨y', ?_, hend⟩
      rw [Yard.run, hstep]
      exact hrun

end Brackets

/-- The operators among waiting tokens. -/
def operators (ws : List Token) : List Token := ws.filter (· ≠ .lparen)

/-- What would come out of the yard if all its brackets closed at once. -/
def Yard.pending (y : Yard) : List Token := y.out.reverse ++ operators y.waiting

section Sending

variable {t w : Token} {row out out' ws ws' : List Token} {y y' : Yard}

@[simp] theorem operators_lparen (ws : List Token) : operators (.lparen :: ws) = operators ws :=
  List.filter_cons_of_neg (by decide)

theorem operators_cons (hw : w ≠ .lparen) (ws : List Token) :
    operators (w :: ws) = w :: operators ws :=
  List.filter_cons_of_pos (decide_eq_true hw)

/-- A waiting operator that goes out stays where it is in the row. -/
theorem reverse_cons_operators (hw : w ≠ .lparen) (out ws : List Token) :
    (w :: out).reverse ++ operators ws = out.reverse ++ operators (w :: ws) := by
  rw [operators_cons hw, List.reverse_cons, List.append_assoc, List.singleton_append]

theorem pending_release (ht : isOperator t = true) :
    (Yard.release t out ws).1.reverse ++ operators (Yard.release t out ws).2 =
        out.reverse ++ operators ws ∧ (Yard.release t out ws).2 ⊆ ws := by
  induction ws generalizing out with
  | nil => exact ⟨rfl, List.Subset.refl _⟩
  | cons w ws ih =>
      rw [Yard.release]
      by_cases hleaves : leaves t w = true
      · rw [if_pos hleaves, ih.1, reverse_cons_operators (not_lparen_of_leaves ht hleaves)]
        exact ⟨rfl, List.subset_cons_of_subset w ih.2⟩
      · rw [if_neg hleaves]
        exact ⟨rfl, List.Subset.refl _⟩

theorem pending_releaseGroup (h : Yard.releaseGroup out ws = some (out', ws')) :
    out'.reverse ++ operators ws' = out.reverse ++ operators ws ∧ ws' ⊆ ws := by
  induction ws generalizing out with
  | nil => cases h
  | cons w ws ih =>
      rw [Yard.releaseGroup] at h
      by_cases hw : w = .lparen
      · rw [if_pos hw, Option.some.injEq, Prod.mk.injEq] at h
        rw [hw, operators_lparen, h.1, h.2]
        exact ⟨rfl, List.subset_cons_self _ _⟩
      · rw [if_neg hw] at h
        rw [(ih h).1, reverse_cons_operators hw]
        exact ⟨rfl, List.subset_cons_of_subset w (ih h).2⟩

/-- A closing bracket sends out what waits in its group and a function in front. -/
theorem pending_close (h : y.close = .ok y') :
    y'.pending = y.pending ∧ y'.waiting ⊆ y.waiting ∧ y'.afterOperand = true := by
  rw [Yard.close] at h
  split at h
  · cases h
  · rename_i out f ws hgroup
    rcases pending_releaseGroup hgroup with ⟨hpending, hsub⟩
    split at h
    · rename_i hf
      rw [← Except.ok.inj h, Yard.pending, Yard.pending,
        reverse_cons_operators (not_lparen_of_isFunction hf), hpending]
      exact ⟨rfl, fun w hw => hsub (List.mem_cons_of_mem f hw), rfl⟩
    · rw [← Except.ok.inj h, Yard.pending, Yard.pending, hpending]
      exact ⟨rfl, hsub, rfl⟩
  · rename_i out hgroup
    rcases pending_releaseGroup hgroup with ⟨hpending, hsub⟩
    rw [← Except.ok.inj h, Yard.pending, Yard.pending, hpending]
    exact ⟨rfl, hsub, rfl⟩

theorem drain_eq_pending (h : ws.count .lparen = 0) :
    Yard.drain out ws = .ok (out.reverse ++ operators ws).reverse := by
  induction ws generalizing out with
  | nil =>
      rw [Yard.drain, operators, List.filter_nil, List.append_nil, List.reverse_reverse]
  | cons w ws ih =>
      have hw : w ≠ .lparen := by
        rintro rfl
        rw [List.count_cons_self] at h
        exact absurd h (Nat.succ_ne_zero _)
      rw [List.count_cons_of_ne hw] at h
      rw [Yard.drain, if_neg hw, ih h, reverse_cons_operators hw]

end Sending

/-- A row with new tokens put in, behind all the values that are in it. -/
def Inserted (new old row : List Token) : Prop :=
  ∃ front back, old = front ++ back ∧ row = front ++ (new ++ back) ∧
    ∀ w ∈ back, isValue w = false

section Inserting

variable {t : Token} {ts new old row : List Token} {y y' : Yard}

theorem Inserted.nothing (row : List Token) : Inserted [] row row :=
  ⟨row, [], (List.append_nil row).symm, (List.append_nil row).symm,
    fun _ hw => absurd hw List.not_mem_nil⟩

theorem Inserted.perm (h : Inserted new old row) : row.Perm (old ++ new) := by
  rcases h with ⟨front, back, rfl, rfl, -⟩
  rw [List.append_assoc]
  exact List.perm_append_comm.append_left front

/-- New values stand behind the old ones. -/
theorem Inserted.values (h : Inserted new old row) :
    row.filter isValue = old.filter isValue ++ new.filter isValue := by
  rcases h with ⟨front, back, rfl, rfl, hback⟩
  have hnone : back.filter isValue = [] := by
    refine List.filter_eq_nil_iff.mpr (fun w hw => ?_)
    rw [hback w hw]
    exact Bool.false_ne_true
  simp only [List.filter_append, hnone, List.append_nil]

theorem not_value_of_operators {ws : List Token} (h : ∀ w ∈ ws, isValue w = false) :
    ∀ w ∈ operators ws, isValue w = false :=
  fun w hw => h w (List.mem_filter.mp hw).1

/-- A token that goes straight out stands in front of all that wait. -/
theorem inserted_send (hwaiting : ∀ w ∈ y.waiting, isValue w = false) (t : Token) :
    Inserted [t] y.pending (y.send t).pending := by
  refine ⟨y.out.reverse, operators y.waiting, rfl, ?_, not_value_of_operators hwaiting⟩
  rw [Yard.send, Yard.pending, List.reverse_cons, List.append_assoc]

/-- A token that waits stands in front of all that have been waiting. -/
theorem inserted_wait (hwaiting : ∀ w ∈ y.waiting, isValue w = false) (ht : t ≠ .lparen) :
    Inserted [t] y.pending (y.wait t).pending := by
  refine ⟨y.out.reverse, operators y.waiting, rfl, ?_, not_value_of_operators hwaiting⟩
  rw [Yard.wait, Yard.pending, operators_cons ht, List.singleton_append]

/-- An operator stands in front of those that still wait behind it. -/
theorem inserted_operate (hwaiting : ∀ w ∈ y.waiting, isValue w = false)
    (ht : isOperator t = true) : Inserted [t] y.pending (y.operate t).pending := by
  have hsent : _ = y.pending ∧ _ ⊆ y.waiting := pending_release ht
  refine ⟨_, _, hsent.1.symm, ?_, not_value_of_operators fun w hw => hwaiting w (hsent.2 hw)⟩
  rw [Yard.operate, Yard.pending, operators_cons (not_lparen_of_isOperator ht),
    List.singleton_append]

/-- A token puts what is left of it into the row, and waits only if it is no value. -/
theorem step_inserted (hwaiting : ∀ w ∈ y.waiting, isValue w = false) (h : y.step t = .ok y') :
    Inserted (kept y.afterOperand t) y.pending y'.pending ∧
      (∀ w ∈ y'.waiting, isValue w = false) ∧ y'.afterOperand = endsOperand t := by
  have hoperate : isOperator t = true → ∀ w ∈ (y.operate t).waiting, isValue w = false := by
    intro ht w hw
    rcases List.mem_cons.mp hw with rfl | hw
    · cases w with
      | plus | minus | star | slash | caret => rfl
      | _ => exact absurd ht Bool.false_ne_true
    · exact hwaiting w ((pending_release ht).2 hw)
  have hwait : isValue t = false → ∀ w ∈ t :: y.waiting, isValue w = false :=
    fun ht => List.forall_mem_cons.mpr ⟨ht, hwaiting⟩
  cases t with
  | num | pi =>
      rw [← Except.ok.inj h]
      exact ⟨inserted_send hwaiting _, hwaiting, rfl⟩
  | ident name =>
      rw [← Except.ok.inj h]
      by_cases hname : isFunctionName name = true
      · have hvalue : isValue (.ident name) = false := by rw [isValue, hname]; rfl
        rw [if_pos hname, endsOperand, hvalue]
        exact ⟨inserted_wait hwaiting (by simp),
          hwait hvalue, rfl⟩
      · have hvalue : isValue (.ident name) = true := by
          rw [isValue, Bool.eq_false_iff.mpr hname]
          rfl
        rw [if_neg hname, endsOperand, hvalue]
        exact ⟨inserted_send hwaiting _, hwaiting, rfl⟩
  | lparen =>
      -- The bracket waits, but it is no part of the row.
      have hpending : (y.wait .lparen).pending = y.pending :=
        congrArg (y.out.reverse ++ ·) (operators_lparen y.waiting)
      rw [← Except.ok.inj h, hpending]
      exact ⟨.nothing _, hwait rfl, rfl⟩
  | rparen =>
      rcases pending_close h with ⟨hpending, hsub, hafter⟩
      rw [hpending, hafter]
      exact ⟨.nothing _, fun w hw => hwaiting w (hsub hw), rfl⟩
  | neg =>
      rw [← Except.ok.inj h]
      exact ⟨inserted_wait hwaiting (by decide), hwait rfl, rfl⟩
  | plus =>
      rw [← Except.ok.inj h]
      by_cases hafter : y.afterOperand = true
      · rw [if_pos hafter, hafter]
        exact ⟨inserted_operate hwaiting rfl, hoperate rfl, rfl⟩
      · rw [if_neg hafter, Bool.eq_false_iff.mpr hafter]
        exact ⟨.nothing _, hwaiting, rfl⟩
  | minus =>
      rw [← Except.ok.inj h]
      by_cases hafter : y.afterOperand = true
      · rw [if_pos hafter, hafter]
        exact ⟨inserted_operate hwaiting rfl, hoperate rfl, rfl⟩
      · -- The sign waits in place of the minus.
        rw [if_neg hafter, Bool.eq_false_iff.mpr hafter]
        exact ⟨inserted_wait hwaiting (t := .neg) (by decide),
          List.forall_mem_cons.mpr ⟨rfl, hwaiting⟩, rfl⟩
  | star | slash | caret =>
      rw [← Except.ok.inj h]
      exact ⟨inserted_operate hwaiting rfl, hoperate rfl, rfl⟩

theorem values_kept (afterOperand : Bool) (t : Token) :
    (kept afterOperand t).filter isValue = [t].filter isValue := by
  cases t with
  | plus | minus => cases afterOperand <;> rfl
  | num | pi | ident | neg | star | slash | caret | lparen | rparen => rfl

/-- What is left of a row is put into the one that is pending, its values behind
    those that are there. -/
theorem run_inserted (hwaiting : ∀ w ∈ y.waiting, isValue w = false)
    (h : Yard.run y ts = .ok y') :
    y'.pending.Perm (y.pending ++ keptAll y.afterOperand ts) ∧
      y'.pending.filter isValue = y.pending.filter isValue ++ ts.filter isValue := by
  induction ts generalizing y with
  | nil =>
      rw [Yard.run, Except.ok.injEq] at h
      rw [h, keptAll, List.filter_nil, List.append_nil, List.append_nil]
      exact ⟨.refl _, rfl⟩
  | cons t ts ih =>
      rw [Yard.run] at h
      rcases hstep : y.step t with e | z
      · rw [hstep] at h
        cases h
      rw [hstep] at h
      rcases step_inserted hwaiting hstep with ⟨hinserted, hwaiting', hafter⟩
      rcases ih hwaiting' h with ⟨hperm, hvalues⟩
      rw [hafter] at hperm
      constructor
      · rw [keptAll, ← List.append_assoc]
        exact hperm.trans (hinserted.perm.append_right _)
      · rw [hvalues, hinserted.values, values_kept, List.append_assoc, ← List.filter_append,
          List.singleton_append]

theorem kept_no_bracket (afterOperand : Bool) :
    .lparen ∉ kept afterOperand t ∧ .rparen ∉ kept afterOperand t := by
  cases t with
  | plus | minus => cases afterOperand <;> decide
  | _ => simp [kept]

theorem keptAll_no_bracket (afterOperand : Bool) (ts : List Token) :
    .lparen ∉ keptAll afterOperand ts ∧ .rparen ∉ keptAll afterOperand ts := by
  induction ts generalizing afterOperand with
  | nil => exact ⟨List.not_mem_nil, List.not_mem_nil⟩
  | cons t ts ih =>
      rw [keptAll, List.mem_append, List.mem_append, not_or, not_or]
      have hkept := kept_no_bracket (t := t) afterOperand
      have hrest := ih (endsOperand t)
      exact ⟨⟨hkept.1, hrest.1⟩, hkept.2, hrest.2⟩

end Inserting

theorem ofTokens_eq_ok {ts row : List Token} (h : ofTokens ts = .ok row) :
    ∃ y, Yard.run .empty ts = .ok y ∧ row = y.pending := by
  rw [ofTokens] at h
  rcases hrun : Yard.run .empty ts with e | y
  · rw [hrun] at h
    cases h
  rw [hrun] at h
  rcases hdrain : Yard.drain y.out y.waiting with e | out
  · simp only [hdrain, Except.map] at h
    cases h
  simp only [drain_eq_pending (count_drain hdrain), Except.map, Except.ok.injEq,
    List.reverse_reverse] at h
  exact ⟨y, rfl, h.symm⟩

/-- The yard fails at brackets only. -/
theorem ofTokens_of_nested {ts : List Token} (h : nested 0 ts = true) :
    ∃ row, ofTokens ts = .ok row := by
  rcases exists_run (y := .empty) h with ⟨y, hrun, hend⟩
  refine ⟨y.pending, ?_⟩
  rw [ofTokens, hrun]
  simp only [drain_eq_pending hend, Except.map, List.reverse_reverse]
  rfl

/-- A row of tokens, well formed or not, is rearranged just when its brackets close.
    Then no bracket comes out, the values come out in their order, and together the
    tokens are those that are left of the row, where a plus sign in front of an
    operand disappears and a minus sign there becomes the sign of the operand. -/
theorem ofTokens_conserves (ts : List Token) :
    ((∃ row, ofTokens ts = .ok row) ↔ Balanced 0 ts) ∧
      ∀ row, ofTokens ts = .ok row →
        (.lparen ∉ row ∧ .rparen ∉ row) ∧ row.filter isValue = ts.filter isValue ∧
          row.Perm (keptAll false ts) := by
  refine ⟨⟨fun ⟨row, h⟩ => ?_, fun h => ?_⟩, fun row h => ?_⟩
  · exact balanced_iff_nested.mpr (nested_of_ofTokens h)
  · exact ofTokens_of_nested (balanced_iff_nested.mp h)
  · rcases ofTokens_eq_ok h with ⟨y, hrun, rfl⟩
    have hnone : ∀ w ∈ Yard.empty.waiting, isValue w = false :=
      fun w hw => absurd hw List.not_mem_nil
    rcases run_inserted hnone hrun with ⟨hperm, hvalues⟩
    have hrow : y.pending.Perm (keptAll false ts) := hperm
    have hbrackets := keptAll_no_bracket false ts
    rw [← hrow.mem_iff, ← hrow.mem_iff] at hbrackets
    exact ⟨hbrackets, hvalues, hrow⟩

/-- The tokens of `2+(+-)√(-x 3)^`, which make no sense but whose brackets close. -/
def senseless : List Token :=
  [.num 2, .plus, .lparen, .plus, .minus, .rparen, .ident "sqrt", .lparen, .minus, .ident "x",
    .num 3, .rparen, .caret]

theorem ofTokens_conserves_senseless :
    ofTokens senseless =
        .ok [.num 2, .neg, .ident "x", .num 3, .neg, .ident "sqrt", .caret, .plus] ∧
      Balanced 0 senseless ∧
      [Token.num 2, .neg, .ident "x", .num 3, .neg, .ident "sqrt", .caret, .plus].Perm
        [.num 2, .plus, .neg, .ident "sqrt", .neg, .ident "x", .num 3, .caret] := by
  have h : ofTokens senseless =
      .ok [.num 2, .neg, .ident "x", .num 3, .neg, .ident "sqrt", .caret, .plus] := by
    decide +kernel
  rcases ofTokens_conserves senseless with ⟨hiff, hall⟩
  exact ⟨h, hiff.mp ⟨_, h⟩, (hall _ h).2.2⟩

end Postfix

end ExactCalc
