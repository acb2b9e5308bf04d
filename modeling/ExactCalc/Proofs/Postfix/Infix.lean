import ExactCalc.Proofs.Postfix.Postorder

/-!
# Reading Infix Expressions

The yard of waiting operators reads every expression of the infix grammar as the
tree the grammar gives it.

The grammar is the usual one, except in what it lets stand in front of an
operand. A minus sign there is a difference from zero that takes in the powers
behind it, so `-2^2` is `-(2^2)`; it may also stand between a function and its
argument, and then the function takes in the powers as well, so `√-x^2` is
`√(-(x^2))`. A plus sign there counts for nothing.

What the yard does with a phrase depends on what was waiting before, but only
through the operator on top. A phrase never looks below the operators it put
there itself, provided that the one on top when it starts binds more loosely
than the first operator the phrase could hold; and what the phrase leaves
waiting binds tightly enough to be sent out by whatever may follow it. `Passes`
says so, with one number for how tightly the operators left behind bind at
least. Operators left behind are counted as if they were out already, since
nothing but a bracket or the end can come between them and their operands.

Functions need one more word. A function in front of a bracket goes out with
that bracket, but in front of a number it keeps waiting, and several may wait in
a row. A factor is therefore read with the functions in front of it in view.

## Main definitions

* `Phrase`, `Derives`: The infix grammar with its trees.
* `HeldBelow`: How tightly the operator on top binds at most.
* `Passes`: What the yard makes of a phrase.

## Theorems

* `release_append`: Operators that bind tightly enough are sent out together.
* `passes_of_derives`: Every phrase passes through the yard.
* `ofTokens_of_derives`: An infix expression is rearranged into the listing of its
  tree.
* `read_of_derives`: An infix expression is read as its tree.
-/

namespace ExactCalc

namespace Postfix

/-- The phrases of an infix expression, from the loosest to the tightest. A
    `signed` phrase is an operand with a minus sign in front, behind any number
    of functions. -/
inductive Phrase where
  | sum
  | product
  | power
  | signed
  | factor
  deriving DecidableEq

/-- The infix grammar: which rows of tokens are a phrase, and with which tree.
    A plus sign where an operand is expected counts for nothing. -/
inductive Derives : Phrase → List Token → Expr → Prop where
  | product {ts : List Token} {x : Expr} (h : Derives .product ts x) : Derives .sum ts x
  | sum {as bs : List Token} {a b : Expr} {t : Token} (ht : t = .plus ∨ t = .minus)
      (ha : Derives .sum as a) (hb : Derives .product bs b) :
      Derives .sum (as ++ t :: bs) (.operation t a b)
  | power {ts : List Token} {x : Expr} (h : Derives .power ts x) : Derives .product ts x
  | times {as bs : List Token} {a b : Expr} {t : Token} (ht : t = .star ∨ t = .slash)
      (ha : Derives .product as a) (hb : Derives .power bs b) :
      Derives .product (as ++ t :: bs) (.operation t a b)
  | factor {ts : List Token} {x : Expr} (h : Derives .factor ts x) : Derives .power ts x
  | raised {as bs : List Token} {a b : Expr} (ha : Derives .factor as a)
      (hb : Derives .power bs b) : Derives .power (as ++ .caret :: bs) (.pow a b)
  | signed {ts : List Token} {x : Expr} (h : Derives .signed ts x) : Derives .power ts x
  | negative {ts : List Token} {x : Expr} (h : Derives .power ts x) :
      Derives .signed (.minus :: ts) (.sub (.rat 0) x)
  | calledSigned {ts : List Token} {x : Expr} {name : String}
      (hname : isFunctionName name = true) (h : Derives .signed ts x) :
      Derives .signed (.ident name :: ts) (.call name x)
  | plusSigned {ts : List Token} {x : Expr} (h : Derives .signed ts x) :
      Derives .signed (.plus :: ts) x
  | called {ts : List Token} {x : Expr} {name : String} (hname : isFunctionName name = true)
      (h : Derives .factor ts x) : Derives .factor (.ident name :: ts) (.call name x)
  | plusFactor {ts : List Token} {x : Expr} (h : Derives .factor ts x) :
      Derives .factor (.plus :: ts) x
  | number (q : Rat) : Derives .factor [.num q] (.rat q)
  | pi : Derives .factor [.pi] .pi
  | named {name : String} (hname : isFunctionName name = false) :
      Derives .factor [.ident name] (.var name)
  | group {ts : List Token} {x : Expr} (h : Derives .sum ts x) :
      Derives .factor (.lparen :: (ts ++ [.rparen])) x

/-- The operator on top of those waiting, if there is one, binds more loosely
    than a bound. -/
def HeldBelow (n : Nat) (waiting : List Token) : Prop :=
  ∀ w ∈ waiting.head?, precedence w < n

theorem HeldBelow.mono {n m : Nat} {waiting : List Token} (h : HeldBelow n waiting)
    (hnm : n ≤ m) : HeldBelow m waiting :=
  fun w hw => Nat.lt_of_lt_of_le (h w hw) hnm

theorem heldBelow_cons {n : Nat} {w : Token} (ws : List Token) (h : precedence w < n) :
    HeldBelow n (w :: ws) := by
  intro v hv
  simp only [List.head?_cons, Option.mem_some_iff] at hv
  exact hv ▸ h

/-- A row of tokens passes through the yard: an operand has ended, and what is
    out or waiting beyond what was there before lists the tree. The operators
    `held` in front were counted as waiting for this operand, and those left
    waiting bind at least as tightly as `floor`. -/
def Passes (floor : Nat) (ts : List Token) (x : Expr) (out held waiting : List Token) : Prop :=
  ∃ out' held' row, Postorder row x ∧
    Yard.run ⟨out, held ++ waiting, false⟩ ts = .ok ⟨out', held' ++ waiting, true⟩ ∧
    held'.reverse ++ out' = held.reverse ++ (row.reverse ++ out) ∧
    ∀ w ∈ held', floor ≤ precedence w

/-- How tightly an operator has to bind to leave before another one arrives.
    Powers group to the right, so only functions leave before a power. -/
def bar (t : Token) : Nat :=
  if t = .caret then 5 else precedence t

theorem leaves_eq (t w : Token) : leaves t w = decide (bar t ≤ precedence w) := by
  unfold leaves bar
  by_cases h : t = .caret
  · rw [if_pos h, if_pos h, h]
    rfl
  · rw [if_neg h, if_neg h]

theorem run_append {y y' : Yard} {as : List Token} (bs : List Token)
    (h : Yard.run y as = .ok y') : Yard.run y (as ++ bs) = Yard.run y' bs := by
  induction as generalizing y with
  | nil =>
      rw [Yard.run, Except.ok.injEq] at h
      rw [h, List.nil_append]
  | cons a as ih =>
      rw [Yard.run] at h
      rw [List.cons_append, Yard.run]
      rcases hstep : y.step a with e | z
      · rw [hstep] at h
        cases h
      · rw [hstep] at h
        exact ih h

/-- The waiting operators that leave are sent out together, down to the first
    that stays. -/
theorem release_append {t : Token} (held waiting out : List Token)
    (hheld : ∀ w ∈ held, bar t ≤ precedence w) (hw : HeldBelow (bar t) waiting) :
    Yard.release t out (held ++ waiting) = (held.reverse ++ out, waiting) := by
  induction held generalizing out with
  | nil =>
      cases waiting with
      | nil => rfl
      | cons w ws =>
          -- The first operator that stays ends the release.
          have hlt : precedence w < bar t := hw w rfl
          rw [List.nil_append, Yard.release, leaves_eq, decide_eq_false (by omega)]
          rfl
  | cons w ws ih =>
      have hle : bar t ≤ precedence w := hheld w List.mem_cons_self
      rw [List.cons_append, Yard.release, leaves_eq, decide_eq_true hle, if_pos rfl,
        ih (w :: out) (fun v hv => hheld v (List.mem_cons_of_mem w hv))]
      rw [List.reverse_cons, List.append_assoc, List.singleton_append]

/-- Operators other than an opening bracket go out with the bracket that closes
    their group. -/
theorem releaseGroup_append (held waiting out : List Token)
    (hheld : ∀ w ∈ held, 0 < precedence w) :
    Yard.releaseGroup out (held ++ .lparen :: waiting) = some (held.reverse ++ out, waiting) := by
  induction held generalizing out with
  | nil => rfl
  | cons w ws ih =>
      have hw : w ≠ .lparen := by
        intro h
        have hpos := hheld w List.mem_cons_self
        rw [h] at hpos
        exact absurd hpos (by decide)
      rw [List.cons_append, Yard.releaseGroup, if_neg hw,
        ih (w :: out) (fun v hv => hheld v (List.mem_cons_of_mem w hv))]
      rw [List.reverse_cons, List.append_assoc, List.singleton_append]

theorem drain_eq (held out : List Token) (hheld : ∀ w ∈ held, 0 < precedence w) :
    Yard.drain out held = .ok (held.reverse ++ out) := by
  induction held generalizing out with
  | nil => rfl
  | cons w ws ih =>
      have hw : w ≠ .lparen := by
        intro h
        have hpos := hheld w List.mem_cons_self
        rw [h] at hpos
        exact absurd hpos (by decide)
      rw [Yard.drain, if_neg hw, ih (w :: out) (fun v hv => hheld v (List.mem_cons_of_mem w hv))]
      rw [List.reverse_cons, List.append_assoc, List.singleton_append]

/-- An operator that arrives sends out what a phrase left waiting, and waits on
    top of what was there before. -/
theorem step_operator {t : Token} (held waiting out : List Token) (ht : isOperator t = true)
    (hheld : ∀ w ∈ held, bar t ≤ precedence w) (hw : HeldBelow (bar t) waiting) :
    Yard.step ⟨out, held ++ waiting, true⟩ t =
      .ok ⟨held.reverse ++ out, t :: waiting, false⟩ := by
  have hop : Yard.operate ⟨out, held ++ waiting, true⟩ t =
      ⟨held.reverse ++ out, t :: waiting, false⟩ := by
    rw [Yard.operate, release_append held waiting out hheld hw]
  cases t with
  | plus | minus | star | slash | caret => simp only [Yard.step, hop, if_true]
  | _ => exact absurd ht Bool.false_ne_true

/-- An operator between two operands, neither of which is held back by what
    waits before it. -/
theorem passes_operation {as bs : List Token} {a b : Expr} {t : Token} {n : Nat}
    {out waiting : List Token} (ht : isOperator t = true) (hn : n ≤ precedence t)
    (hw : HeldBelow (bar t) waiting) (ha : Passes (bar t) as a out [] waiting)
    (hb : ∀ out', Passes n bs b out' [] (t :: waiting)) :
    Passes n (as ++ t :: bs) (.operation t a b) out [] waiting := by
  rcases ha with ⟨out₁, held₁, row₁, hrow₁, hrun₁, heq₁, hfloor₁⟩
  -- The operator sends out what its first operand left, and waits below the second.
  have hstep := step_operator held₁ waiting out₁ ht hfloor₁ hw
  rcases hb (held₁.reverse ++ out₁) with ⟨out₂, held₂, row₂, hrow₂, hrun₂, heq₂, hfloor₂⟩
  refine ⟨out₂, held₂ ++ [t], row₁ ++ (row₂ ++ [t]), .operation ht hrow₁ hrow₂, ?_, ?_, ?_⟩
  · rw [run_append _ hrun₁, Yard.run, hstep]
    simp only
    rw [List.append_assoc]
    exact hrun₂
  · simp only [List.reverse_append, List.reverse_cons, List.reverse_nil, List.nil_append,
      List.append_assoc, List.singleton_append] at heq₁ heq₂ ⊢
    rw [List.cons_append, heq₂, heq₁, List.cons_append]
  · intro w hw
    rcases List.mem_append.mp hw with hw | hw
    · exact hfloor₂ w hw
    · rw [List.mem_singleton] at hw
      exact hw ▸ hn

/-- An operator that groups to the left, behind an operand of its own level and
    in front of a tighter one. -/
theorem passes_leftwards {as bs : List Token} {a b : Expr} {t : Token} {n : Nat}
    (ht : isOperator t = true) (hprec : precedence t = n) (hbar : bar t = n)
    (ha : ∀ out waiting, HeldBelow n waiting → Passes n as a out [] waiting)
    (hb : ∀ out waiting, HeldBelow (n + 1) waiting → Passes n bs b out [] waiting)
    (out waiting : List Token) (hw : HeldBelow n waiting) :
    Passes n (as ++ t :: bs) (.operation t a b) out [] waiting := by
  have hfirst : Passes (bar t) as a out [] waiting := by
    rw [hbar]
    exact ha out waiting hw
  rw [← hbar] at hw
  refine passes_operation ht (by omega) hw hfirst (fun out' => ?_)
  exact hb out' (t :: waiting) (heldBelow_cons waiting (by omega))

theorem Passes.mono {n m : Nat} {ts : List Token} {x : Expr} {out held waiting : List Token}
    (h : Passes n ts x out held waiting) (hmn : m ≤ n) : Passes m ts x out held waiting := by
  rcases h with ⟨out', held', row, hrow, hrun, heq, hfloor⟩
  exact ⟨out', held', row, hrow, hrun, heq, fun w hw => Nat.le_trans hmn (hfloor w hw)⟩

theorem passes_send {t : Token} {x : Expr} {n : Nat} {out held waiting : List Token}
    (hrow : Postorder [t] x) (hstep : ∀ y : Yard, y.step t = .ok (y.send t))
    (hheld : ∀ w ∈ held, n ≤ precedence w) : Passes n [t] x out held waiting := by
  refine ⟨t :: out, held, [t], hrow, ?_, rfl, hheld⟩
  rw [Yard.run, hstep]
  rfl

/-- A phrase behind a token that makes an operator wait: the operator goes out
    after it. -/
theorem passes_wait {s t : Token} {ts : List Token} {x y : Expr} {n : Nat}
    {out waiting : List Token}
    (hstep : Yard.step ⟨out, waiting, false⟩ s = .ok ⟨out, t :: waiting, false⟩)
    (hrow : ∀ row, Postorder row x → Postorder (row ++ [t]) y) (ht : n ≤ precedence t)
    (h : Passes n ts x out [] (t :: waiting)) : Passes n (s :: ts) y out [] waiting := by
  -- What the phrase leaves waiting stands above the operator and goes out before it.
  rcases h with ⟨out', held', row, hx, hrun, heq, hfloor⟩
  refine ⟨out', held' ++ [t], row ++ [t], hrow row hx, ?_, ?_, ?_⟩
  · rw [List.nil_append, Yard.run, hstep, List.append_assoc]
    exact hrun
  · simp only [List.reverse_append, List.reverse_cons, List.reverse_nil, List.nil_append,
      List.cons_append] at heq ⊢
    rw [heq]
  · intro w hw
    rcases List.mem_append.mp hw with hw | hw
    · exact hfloor w hw
    · rw [List.mem_singleton] at hw
      exact hw ▸ ht

theorem le_precedence_of_isFunction {f : Token} (hf : isFunction f = true) :
    5 ≤ precedence f := by
  cases f with
  | ident name => exact Nat.le_refl 5
  | _ => exact absurd hf Bool.false_ne_true

theorem close_of_not_isFunction {y : Yard} {out ws : List Token}
    (h : Yard.releaseGroup y.out y.waiting = some (out, ws))
    (hws : ∀ w ∈ ws.head?, isFunction w = false) : y.close = .ok ⟨out, ws, true⟩ := by
  rw [Yard.close, h]
  cases ws with
  | nil => rfl
  | cons w ws =>
      have hw : isFunction w = false := hws w rfl
      simp only [hw, Bool.false_eq_true, if_false]

theorem close_of_isFunction {y : Yard} {f : Token} {out ws : List Token}
    (h : Yard.releaseGroup y.out y.waiting = some (out, f :: ws)) (hf : isFunction f = true) :
    y.close = .ok ⟨f :: out, ws, true⟩ := by
  rw [Yard.close, h]
  simp only [hf, if_true]

/-- A phrase between brackets, and with it the function in front. -/
theorem passes_group {ts : List Token} {x : Expr} {out held waiting : List Token}
    (hheld : ∀ f ∈ held, isFunction f = true) (hw : HeldBelow 5 waiting)
    (h : Passes 1 ts x out [] (.lparen :: (held ++ waiting))) :
    Passes 5 (.lparen :: (ts ++ [.rparen])) x out held waiting := by
  rcases h with ⟨out', held', row, hrow, hrun, heq, hfloor⟩
  rw [List.nil_append] at hrun
  rw [List.reverse_nil, List.nil_append] at heq
  have hgroup : Yard.releaseGroup out' (held' ++ .lparen :: (held ++ waiting)) =
      some (row.reverse ++ out, held ++ waiting) := by
    rw [releaseGroup_append held' (held ++ waiting) out' hfloor, heq]
  have hrun' : ∀ y, Yard.close ⟨out', held' ++ .lparen :: (held ++ waiting), true⟩ = .ok y →
      Yard.run ⟨out, held ++ waiting, false⟩ (.lparen :: (ts ++ [.rparen])) = .ok y := by
    intro y hy
    rw [Yard.run]
    simp only [Yard.step, Yard.wait]
    rw [run_append [.rparen] hrun, Yard.run]
    simp only [Yard.step, hy, Yard.run]
  -- What stands on top behind the bracket is a function only if one was in front of it.
  rcases held with _ | ⟨f, fs⟩
  · refine ⟨row.reverse ++ out, [], row, hrow, hrun' _ ?_, rfl, fun w hmem => ?_⟩
    · refine close_of_not_isFunction hgroup (fun w hmem => ?_)
      rw [Bool.eq_false_iff]
      intro hf
      have hlt : precedence w < 5 := hw w hmem
      exact absurd (le_precedence_of_isFunction hf) (by omega)
    · exact absurd hmem List.not_mem_nil
  · have hf : isFunction f = true := hheld f List.mem_cons_self
    refine ⟨f :: (row.reverse ++ out), fs, row, hrow, hrun' _ ?_, ?_, fun w hmem => ?_⟩
    · exact close_of_isFunction hgroup hf
    · rw [List.reverse_cons, List.append_assoc, List.singleton_append]
    · exact le_precedence_of_isFunction (hheld w (List.mem_cons_of_mem f hmem))

/-- How a phrase of each kind passes: what may wait on top before it, and how
    tightly what it leaves waiting binds. -/
def Reads : Phrase → List Token → Expr → Prop
  | .sum, ts, x => ∀ out waiting, HeldBelow 1 waiting → Passes 1 ts x out [] waiting
  | .product, ts, x => ∀ out waiting, HeldBelow 2 waiting → Passes 2 ts x out [] waiting
  | .power, ts, x => ∀ out waiting, HeldBelow 5 waiting → Passes 3 ts x out [] waiting
  | .signed, ts, x => ∀ out waiting, Passes 3 ts x out [] waiting
  | .factor, ts, x => ∀ out held waiting, (∀ f ∈ held, isFunction f = true) →
      HeldBelow 5 waiting → Passes 5 ts x out held waiting

/-- Every phrase passes through the yard. -/
theorem passes_of_derives {ph : Phrase} {ts : List Token} {x : Expr} (h : Derives ph ts x) :
    Reads ph ts x := by
  induction h with
  | product _ ih =>
      intro out waiting hw
      exact (ih out waiting (hw.mono (by omega))).mono (by omega)
  | @sum as bs a b t ht _ _ iha ihb =>
      have hop : isOperator t = true := by rcases ht with rfl | rfl <;> rfl
      have hprec : precedence t = 1 := by rcases ht with rfl | rfl <;> rfl
      have hbar : bar t = 1 := by rcases ht with rfl | rfl <;> rfl
      exact passes_leftwards hop hprec hbar iha (fun out waiting hw =>
        (ihb out waiting hw).mono (by omega))
  | power _ ih =>
      intro out waiting hw
      exact (ih out waiting (hw.mono (by omega))).mono (by omega)
  | @times as bs a b t ht _ _ iha ihb =>
      have hop : isOperator t = true := by rcases ht with rfl | rfl <;> rfl
      have hprec : precedence t = 2 := by rcases ht with rfl | rfl <;> rfl
      have hbar : bar t = 2 := by rcases ht with rfl | rfl <;> rfl
      exact passes_leftwards hop hprec hbar iha (fun out waiting hw =>
        (ihb out waiting (hw.mono (by omega))).mono (by omega))
  | factor _ ih =>
      intro out waiting hw
      exact (ih out [] waiting (fun f hf => absurd hf List.not_mem_nil) hw).mono (by omega)
  | raised _ _ iha ihb =>
      -- Nothing but functions leaves before a power, so the exponent may be one in turn.
      intro out waiting hw
      refine passes_operation rfl (by decide) hw ?_ (fun out' => ?_)
      · exact iha out [] waiting (fun f hf => absurd hf List.not_mem_nil) hw
      · exact ihb out' _ (heldBelow_cons waiting (by decide))
  | signed _ ih => exact fun out waiting _ => ih out waiting
  | negative _ ih =>
      -- The sign waits as a difference from zero, whatever waits below it.
      intro out waiting
      exact passes_wait rfl (fun row hrow => hrow.negative) (by decide)
        (ih out _ (heldBelow_cons waiting (by decide)))
  | @calledSigned ts x name hname _ ih =>
      intro out waiting
      have hstep : Yard.step ⟨out, waiting, false⟩ (.ident name) =
          .ok ⟨out, .ident name :: waiting, false⟩ := by
        simp only [Yard.step, hname, if_true, Yard.wait]
      have htight : 3 ≤ precedence (.ident name) := Nat.le_of_ble_eq_true rfl
      exact passes_wait hstep (fun row hrow => hrow.call hname) htight (ih out _)
  | plusSigned _ ih => exact fun out waiting => ih out waiting
  | @called ts x name hname _ ih =>
      -- One more function waits in front of the same factor.
      intro out held waiting hheld hw
      have hheld' : ∀ f ∈ .ident name :: held, isFunction f = true := by
        intro f hf
        rcases List.mem_cons.mp hf with rfl | hf
        · exact hname
        · exact hheld f hf
      rcases ih out (.ident name :: held) waiting hheld' hw with
        ⟨out', held', row, hrow, hrun, heq, hfloor⟩
      refine ⟨out', held', row ++ [.ident name], hrow.call hname, ?_, ?_, hfloor⟩
      · rw [Yard.run]
        simp only [Yard.step, hname, if_true, Yard.wait]
        exact hrun
      · rw [heq, List.reverse_cons, List.reverse_append, List.append_assoc, List.append_assoc]
        rfl
  | plusFactor _ ih => exact fun out held waiting hheld hw => ih out held waiting hheld hw
  | number q =>
      intro out held waiting hheld _
      exact passes_send (.number q) (fun y => rfl)
        (fun w hw => le_precedence_of_isFunction (hheld w hw))
  | pi =>
      intro out held waiting hheld _
      exact passes_send .pi (fun y => rfl)
        (fun w hw => le_precedence_of_isFunction (hheld w hw))
  | @named name hname =>
      intro out held waiting hheld _
      refine passes_send (.named hname) (fun y => ?_)
        (fun w hw => le_precedence_of_isFunction (hheld w hw))
      simp only [Yard.step, hname, Bool.false_eq_true, if_false]
  | group _ ih =>
      -- The opening bracket binds most loosely, so the phrase inside starts afresh.
      intro out held waiting hheld hw
      exact passes_group hheld hw (ih out _ (heldBelow_cons _ (by decide)))

/-- An infix expression is rearranged into a row that lists its tree. -/
theorem ofTokens_of_derives {ts : List Token} {x : Expr} (h : Derives .sum ts x) :
    ∃ row, ofTokens ts = .ok row ∧ Postorder row x := by
  have hnothing : HeldBelow 1 [] := by
    intro w hw
    exact absurd hw (by simp only [List.head?_nil, Option.not_mem_none, not_false_eq_true])
  rcases passes_of_derives h [] [] hnothing with ⟨out, held, row, hrow, hrun, heq, hfloor⟩
  simp only [List.append_nil, List.reverse_nil, List.nil_append] at hrun heq
  refine ⟨row, ?_, hrow⟩
  rw [ofTokens, Yard.empty, hrun]
  simp only
  rw [drain_eq held out hfloor, heq]
  simp only [Except.map, List.reverse_reverse]

/-- An infix expression is read as the tree its grammar gives it, within every
    bound on the depth that the tree fits. -/
theorem read_of_derives {ts : List Token} {x : Expr} (h : Derives .sum ts x) (bound : Nat)
    (hb : x.depth ≤ bound) : (ofTokens ts >>= Expr.ofPostfix bound) = .ok x := by
  rcases ofTokens_of_derives h with ⟨row, hrow, hlists⟩
  -- The row lists the tree, and a row determines the tree it lists.
  rw [hrow]
  exact ofPostfix_postorder hlists hb

/-- The tokens of `+√+-x^2*-3`. -/
def signedRoot : List Token :=
  [.plus, .ident "sqrt", .plus, .minus, .ident "x", .caret, .num 2, .star, .minus, .num 3]

/-- The tree of `+√+-x^2*-3`. -/
def signedRootTree : Expr :=
  .mul (.sqrt (.sub (.rat 0) (.pow (.var "x") (.rat 2)))) (.sub (.rat 0) (.rat 3))

theorem read_signedRoot : Derives .sum signedRoot signedRootTree ∧ signedRootTree.depth ≤ 5 ∧
    (ofTokens signedRoot >>= Expr.ofPostfix 5) = .ok signedRootTree := by
  have hsqrt : isFunctionName "sqrt" = true := by decide
  have hx : isFunctionName "x" = false := by decide
  have hsquare : Derives .power [.ident "x", .caret, .num 2] (.pow (.var "x") (.rat 2)) :=
    .raised (.named hx) (.factor (.number 2))
  have hroot : Derives .power [.plus, .ident "sqrt", .plus, .minus, .ident "x", .caret, .num 2]
      (.sqrt (.sub (.rat 0) (.pow (.var "x") (.rat 2)))) :=
    .signed (.plusSigned (.calledSigned hsqrt (.plusSigned (.negative hsquare))))
  have hthree : Derives .power [.minus, .num 3] (.sub (.rat 0) (.rat 3)) :=
    .signed (.negative (.factor (.number 3)))
  have h : Derives .sum signedRoot signedRootTree :=
    .product (.times (.inl rfl) (.power hroot) hthree)
  exact ⟨h, by decide, read_of_derives h 5 (by decide)⟩

end Postfix

end ExactCalc
