import ExactCalc.Proofs.Definitions
import ExactCalc.Proofs.Postfix.Operands
import ExactCalc.Proofs.Simplify.Names
import ExactCalc.Proofs.Token.Cut

/-!
# What Parsing Gives

The names in a parsed tree, and the errors that parsing can end in.

A name is taken from the text by the tokenizer and from there on only handed on:
the yard changes the order of tokens, and the tree builder turns the names that
are no functions into variables. So whatever holds of the identifiers that can be
spelled with the characters of a text holds of all names in its tree.

None of this looks at definitions, so none of it finds a circular one. And only
the tokenizer knows of places in the text; the place it tells of is that of a
character, or the one behind the text if that ends in a marker whose digits are
missing. `Yields` says such things of the result and of the error at once, and is
carried along the computation.

## Main definitions

* `Yields`: A result with a property, or an error with one.
* `EvalError.Plain`, `EvalError.Before`: No circular definition, and no place at
  all or none from a certain one on.
* `Token.NamedBy`: A token that is no variable, or one whose name has a property.
* `Token.limit`: Where the places end that the tokenizer can tell of.

## Theorems

* `Yields.bind`, `Yields.map`, `Yields.mono`: Computations one after the other.
* `yields_tokenizeFrom`, `yields_ofTokens`, `yields_ofPostfix`: The steps.
* `yields_parse`, `isCircular_of_parse`: All of them together.
-/

namespace ExactCalc

/-- Whether an error tells of a circular definition. -/
def EvalError.isCircular : EvalError → Bool
  | .arithmetic (.circularDefinition _) => true
  | _ => false

/-- The place in a text that an error tells of. -/
def EvalError.position? : EvalError → Option Nat
  | .unreadable _ position => position
  | _ => none

/-- The error tells neither of a circular definition nor of a place. -/
def EvalError.Plain (e : EvalError) : Prop := (!e.isCircular && e.position?.isNone) = true

/-- The error tells of no circular definition, and of no place from a certain one on. -/
structure EvalError.Before (stop : Nat) (e : EvalError) : Prop where
  sound : e.isCircular = false
  place : ∀ p, e.position? = some p → p < stop

/-- What stops a calculation tells neither of a circular definition nor of a place. A
    breakdown tells of nothing. -/
def Stop.Plain : Stop → Prop
  | .failure e => e.Plain
  | .breakdown _ => True

/-- A result with a property, or an error with one. -/
def Yields {ε α : Type} (E : ε → Prop) (P : α → Prop) : Except ε α → Prop
  | .ok a => P a
  | .error e => E e

section Sequencing

variable {ε α β : Type} {E F : ε → Prop} {P : α → Prop} {Q : β → Prop} {r : Except ε α}

theorem Yields.bind {f : α → Except ε β} (hr : Yields E P r)
    (hf : ∀ a, P a → Yields E Q (f a)) : Yields E Q (r >>= f) := by
  rcases r with e | a
  · exact hr
  · exact hf a hr

theorem Yields.map {f : α → β} (hr : Yields E P r) (hf : ∀ a, P a → Q (f a)) :
    Yields E Q (r.map f) := by
  rcases r with e | a
  · exact hr
  · exact hf a hr

theorem Yields.mono (hr : Yields E P r) (hE : ∀ e, E e → F e) : Yields F P r := by
  rcases r with e | a
  · exact hE e hr
  · exact hr

/-- A result with the property, or an error with the other. -/
theorem Yields.cases (hr : Yields E P r) :
    (∃ e, r = .error e ∧ E e) ∨ ∃ a, r = .ok a ∧ P a := by
  rcases r with e | a
  · exact .inl ⟨e, rfl, hr⟩
  · exact .inr ⟨a, rfl, hr⟩

theorem EvalError.Plain.parts {e : EvalError} (h : e.Plain) :
    e.isCircular = false ∧ e.position? = none := by
  rw [Plain, Bool.and_eq_true, Bool.not_eq_true', Option.isNone_iff_eq_none] at h
  exact h

theorem EvalError.Plain.before {e : EvalError} (h : e.Plain) (stop : Nat) : e.Before stop := by
  rcases h.parts with ⟨hsound, hnone⟩
  refine ⟨hsound, fun p hp => ?_⟩
  rw [hnone] at hp
  cases hp

theorem EvalError.Before.mono {e : EvalError} {stop stop' : Nat} (h : e.Before stop)
    (hstop : stop ≤ stop') : e.Before stop' :=
  ⟨h.sound, fun p hp => Nat.lt_of_lt_of_le (h.place p hp) hstop⟩

end Sequencing

/-- The token is no variable, or its name has a property. -/
def Token.NamedBy (P : String → Prop) (t : Token) : Prop :=
  ∀ name, t = .ident name → Postfix.isFunctionName name = false → P name

section Tokens

variable {P : String → Prop}

open Token

theorem namedBy_num (q : Rat) : (num q).NamedBy P :=
  fun _ ht => nomatch ht

theorem namedBy_neg : neg.NamedBy P :=
  fun _ ht => nomatch ht

/-- What a name stands for is an identifier, if it is a variable. -/
theorem namedBy_ofName {c : Char} {w : List Char} (hc : isNameStart c = true)
    (hw : ∀ d ∈ w, isNameChar d = true)
    (hP : ∀ name, Expr.IsIdentifier name → name.toList = c :: w → P name) :
    (ofName (c :: w)).NamedBy P := by
  intro name hname hplain
  rw [ofName] at hname
  split at hname
  · cases hname
  rename_i hpi
  have htext : name.toList = c :: w := by
    rw [← Token.ident.inj hname, String.toList_ofList]
  refine hP name ⟨⟨c, w, htext, hc, hw⟩, fun h => ?_, fun h => ?_, fun h => ?_⟩ htext
  · rw [h] at htext
    exact hpi htext.symm
  · rw [h] at hplain
    exact absurd hplain (by decide)
  · rw [h] at hplain
    exact absurd hplain (by decide)

theorem namedBy_ofChar? {c : Char} {t : Token} (h : ofChar? c = some t) : t.NamedBy P := by
  intro name ht hplain
  rw [ht] at h
  unfold ofChar? at h
  split at h
  case h_9 =>
    -- The sign of the root is the only one that stands for a name, that of a function.
    rw [Option.some.injEq, Token.ident.injEq] at h
    rw [← h] at hplain
    exact absurd hplain (by decide)
  all_goals cases h

/-- An error at a place. -/
theorem before_unreadable {pos stop : Nat} (fault : ReadingFault) (h : pos < stop) :
    (EvalError.unreadable fault (some pos)).Before stop :=
  ⟨rfl, fun _ hp => Option.some.inj hp ▸ h⟩

theorem yields_mantissa (r : Radix) {pos stop : Nat} (m : Mantissa) {cs : List Char}
    (h : pos + cs.length ≤ stop) :
    Yields (·.Before stop) (fun _ => True) (Mantissa.read r pos m cs) := by
  induction cs generalizing pos m with
  | nil => exact trivial
  | cons c cs ih =>
      rw [List.length_cons] at h
      rw [Mantissa.read]
      split
      · split
        · exact before_unreadable _ (by omega)
        · exact ih _ (by omega)
      · split
        · exact ih _ (by omega)
        · have hplain : (EvalError.digitOutsideRadix c r).Plain := rfl
          exact hplain.before stop

theorem yields_readExponent {pos stop : Nat} (h : pos < stop) (cs : List Char) :
    Yields (·.Before stop) (fun _ => True) (readExponent pos cs) := by
  rw [readExponent_eq, powerOf]
  split
  · exact before_unreadable _ h
  · split
    · exact trivial
    · have hplain : EvalError.tooComplex.Plain := rfl
      exact hplain.before stop

/-- A number is read, or refused as a number at a place in it. -/
theorem yields_readNumber (r : Radix) {pos stop : Nat} {cs : List Char} (hpos : pos < stop)
    (h : pos + cs.length ≤ stop) :
    Yields (·.Before stop) (fun _ => True) (readNumber r pos cs) := by
  have hrun : (cs.takeWhile fun c => c == '.' || isDigitCandidate r c).length ≤ cs.length :=
    (List.takeWhile_sublist _).length_le
  rw [readNumber_eq]
  generalize cs.takeWhile (fun c => c == '.' || isDigitCandidate r c) = run at hrun
  have hmantissa : Yields (·.Before stop) (fun _ => True) (Mantissa.read r pos .empty run) :=
    yields_mantissa r .empty (by omega)
  rcases hmantissa.cases with ⟨e, hread, hbefore⟩ | ⟨m, hread, -⟩ <;> rw [hread]
  · exact hbefore
  · simp only
    split
    · exact before_unreadable _ hpos
    · unfold scaledBy
      split
      · next c tail hdrop =>
          have hlength := congrArg List.length hdrop
          rw [List.length_drop, List.length_cons] at hlength
          split
          · exact (yields_readExponent (by omega) tail).map (fun _ _ => trivial)
          · exact trivial
      · exact trivial

/-- Where the places end that the tokenizer can tell of in a text that starts at `pos`:
    behind the text, and one further if it ends like a marker. -/
def Token.limit (pos : Nat) (cs : List Char) : Nat :=
  pos + cs.length + if cs.getLast? = some ':' then 1 else 0

theorem limit_append (pos : Nat) (as cs : List Char) :
    limit (pos + as.length) cs ≤ limit pos (as ++ cs) := by
  unfold limit
  rw [List.length_append, List.getLast?_append]
  by_cases hlast : cs.getLast? = some ':'
  · rw [if_pos hlast, hlast, Option.some_or, if_pos rfl]
    omega
  · rw [if_neg hlast]
    omega

/-- A place in front of a character is one of the text. -/
theorem pos_lt_limit (pos : Nat) (c : Char) (cs : List Char) : pos < limit pos (c :: cs) := by
  rw [limit, List.length_cons]
  omega

/-- What holds of the tokens behind the first one holds of all, if it holds of that. -/
theorem yields_cons {t : Token} {pos pos' : Nat} (as : List Char) {rest cs : List Char}
    (ht : t.NamedBy P) (hcs : cs = as ++ rest) (hpos : pos' ≤ pos + as.length)
    (hrest : Yields (·.Before (limit pos' rest)) (fun ts => ∀ t ∈ ts, t.NamedBy P)
      (tokenizeFrom pos' rest)) :
    Yields (·.Before (limit pos cs)) (fun ts => ∀ t ∈ ts, t.NamedBy P)
      ((tokenizeFrom pos' rest).map (t :: ·)) := by
  have hlimit : limit pos' rest ≤ limit pos cs := by
    have happend := limit_append pos as rest
    rw [hcs]
    unfold limit at happend ⊢
    omega
  exact (hrest.map fun ts hts => List.forall_mem_cons.mpr ⟨ht, hts⟩).mono
    fun e he => he.mono hlimit

/-- The names among the tokens of a text are identifiers that are spelled with its
    characters, and a text that has no tokens is at fault in one of its places. -/
theorem yields_tokenizeFrom (pos : Nat) (cs : List Char)
    (hP : ∀ name, Expr.IsIdentifier name → name.toList ⊆ cs → P name) :
    Yields (·.Before (limit pos cs)) (fun ts => ∀ t ∈ ts, t.NamedBy P) (tokenizeFrom pos cs) := by
  fun_induction tokenizeFrom pos cs with
  | case1 => exact List.forall_mem_nil _
  | case2 pos c cs _ ih =>
      refine (ih fun name h hsub => hP name h ?_).mono fun e he =>
        he.mono (limit_append pos [c] cs)
      exact List.Subset.trans hsub (List.subset_cons_self c cs)
  | case3 pos c cs _ t ht ih =>
      exact yields_cons [c] (namedBy_ofChar? ht) rfl (Nat.le_refl _)
        (ih fun name h hsub => hP name h (List.Subset.trans hsub (List.subset_cons_self c cs)))
  | case4 pos c cs _ _ r rest hmarker pos' e hread =>
      -- Where the digits are missing behind a marker, the place is that behind the marker.
      have htext : c :: cs = r.marker ++ rest := Radix.splitLongMarker?_eq_some.mp hmarker
      have hlimit := limit_append pos r.marker rest
      have hplace : pos' < limit pos (c :: cs) := by
        rcases rest with _ | ⟨d, rest⟩
        · rw [htext, List.append_nil, limit, Radix.getLast?_marker, if_pos rfl]
          exact Nat.lt_succ_self _
        · rw [htext]
          exact Nat.lt_of_lt_of_le (pos_lt_limit pos' d rest) hlimit
      have hrest : pos' + rest.length ≤ limit pos (c :: cs) := by
        rw [htext]
        exact Nat.le_trans (Nat.le_add_right _ _) hlimit
      have hnumber := yields_readNumber r hplace hrest
      rw [hread] at hnumber
      exact hnumber
  | case5 pos c cs _ _ r rest hmarker pos' q n hread ih =>
      -- The tokens behind a number are those of a text that is left of this one.
      have htext : c :: cs = r.marker ++ rest := Radix.splitLongMarker?_eq_some.mp hmarker
      refine yields_cons (r.marker ++ rest.take n) (namedBy_num q) ?_ ?_
        (ih fun name h hsub => hP name h (List.Subset.trans hsub ?_))
      · rw [htext, List.append_assoc, List.take_append_drop]
      · rw [List.length_append, List.length_take_of_le (readNumber_le hread), ← Nat.add_assoc]
      · rw [htext]
        exact List.Subset.trans (List.drop_subset n rest) (List.subset_append_right _ _)
  | case6 pos c cs _ _ _ _ e hread =>
      have hnumber := yields_readNumber .dec (pos_lt_limit pos c cs) (Nat.le_add_right _ _)
      rw [hread] at hnumber
      exact hnumber
  | case7 pos c cs _ _ _ _ q n hread ih =>
      have hle := readNumber_le hread
      rw [List.length_cons] at hle
      refine yields_cons (c :: cs.take (n - 1)) (namedBy_num q) ?_ ?_
        (ih fun name h hsub => hP name h (List.Subset.trans hsub ?_))
      · rw [List.cons_append, List.take_append_drop]
      · rw [List.length_cons, List.length_take_of_le (by omega)]
        omega
      · exact List.Subset.trans (List.drop_subset _ cs) (List.subset_cons_self c cs)
  | case8 pos c cs _ _ _ _ hc tail ih =>
      have htail : tail ++ cs.drop tail.length = cs := by
        have hprefix : tail <+: cs := List.takeWhile_prefix isNameChar
        exact List.prefix_iff_eq_append.mp hprefix
      refine yields_cons (c :: tail)
        (namedBy_ofName hc (List.all_eq_true.mp List.all_takeWhile) fun name h htext => ?_) ?_ ?_
        (ih fun name h hsub => hP name h (List.Subset.trans hsub ?_))
      · -- The name is the longest beginning of the text that can be one.
        refine hP name h ?_
        rw [htext]
        exact List.cons_subset_cons c (List.takeWhile_subset isNameChar)
      · rw [List.cons_append, htail]
      · rw [List.length_cons]
        omega
      · exact List.Subset.trans (List.drop_subset _ cs) (List.subset_cons_self c cs)
  | case9 => exact before_unreadable _ (pos_lt_limit _ _ _)

end Tokens

section Rows

variable {P : String → Prop}

open Postfix

/-- All tokens that have gone out or wait have a property. -/
def Postfix.Yard.All (Q : Token → Prop) (y : Yard) : Prop :=
  (∀ t ∈ y.out, Q t) ∧ ∀ t ∈ y.waiting, Q t

variable {Q : Token → Prop} {y : Yard}

/-- Waiting operators go out as they are. -/
theorem Postfix.Yard.All.operate {t : Token} (h : y.All Q) (ht : Q t) : (y.operate t).All Q := by
  -- What goes out has been waiting, and so has what is left.
  rcases Yard.out_release t y.out y.waiting with ⟨sent, hout, hwaiting⟩
  have hsent : ∀ w ∈ sent, Q w := by
    intro w hw
    refine h.2 w ?_
    rw [hwaiting]
    exact List.mem_append_left _ (List.mem_reverse.mpr hw)
  have hleft : ∀ w ∈ (Yard.release t y.out y.waiting).2, Q w := by
    intro w hw
    refine h.2 w ?_
    rw [hwaiting]
    exact List.mem_append_right _ hw
  refine ⟨?_, List.forall_mem_cons.mpr ⟨ht, hleft⟩⟩
  simp only [Yard.operate, hout]
  exact List.forall_mem_append.mpr ⟨hsent, h.1⟩

theorem all_releaseGroup {out ws out' ws' : List Token}
    (h : Yard.releaseGroup out ws = some (out', ws')) (hout : ∀ t ∈ out, Q t)
    (hws : ∀ t ∈ ws, Q t) : (∀ t ∈ out', Q t) ∧ ∀ t ∈ ws', Q t := by
  induction ws generalizing out with
  | nil => cases h
  | cons w ws ih =>
      rcases List.forall_mem_cons.mp hws with ⟨hw, hws⟩
      rw [Yard.releaseGroup] at h
      split at h
      · rw [Option.some.injEq, Prod.mk.injEq] at h
        rw [← h.1, ← h.2]
        exact ⟨hout, hws⟩
      · exact ih h (List.forall_mem_cons.mpr ⟨hw, hout⟩) hws

theorem yields_close (h : y.All Q) : Yields EvalError.Plain (·.All Q) y.close := by
  unfold Yard.close
  split
  · exact rfl
  · rename_i out f ws hgroup
    rcases all_releaseGroup hgroup h.1 h.2 with ⟨hout, hws⟩
    rcases List.forall_mem_cons.mp hws with ⟨hf, hws'⟩
    split
    · exact ⟨List.forall_mem_cons.mpr ⟨hf, hout⟩, hws'⟩
    · exact ⟨hout, hws⟩
  · rename_i out hgroup
    exact all_releaseGroup hgroup h.1 h.2

/-- The yard takes in one token and the sign of an operand, and nothing else. -/
theorem yields_step {t : Token} (h : y.All Q) (ht : Q t) (hneg : Q .neg) :
    Yields EvalError.Plain (·.All Q) (y.step t) := by
  have hsend : (y.send t).All Q := ⟨List.forall_mem_cons.mpr ⟨ht, h.1⟩, h.2⟩
  have hwait : (y.wait t).All Q := ⟨h.1, List.forall_mem_cons.mpr ⟨ht, h.2⟩⟩
  cases t with
  | num | pi => exact hsend
  | lparen | neg => exact hwait
  | rparen => exact yields_close h
  | star | slash | caret => exact h.operate ht
  | ident name =>
      simp only [Yard.step]
      split
      · exact hwait
      · exact hsend
  | minus =>
      simp only [Yard.step]
      split
      · exact h.operate ht
      · -- Before an operand the minus sign is kept as the sign of that operand.
        exact ⟨h.1, List.forall_mem_cons.mpr ⟨hneg, h.2⟩⟩
  | plus =>
      simp only [Yard.step]
      split
      · exact h.operate ht
      · exact h

theorem yields_run {ts : List Token} (h : y.All Q) (hts : ∀ t ∈ ts, Q t) (hneg : Q .neg) :
    Yields EvalError.Plain (·.All Q) (Yard.run y ts) := by
  induction ts generalizing y with
  | nil => exact h
  | cons t ts ih =>
      rcases List.forall_mem_cons.mp hts with ⟨ht, hts⟩
      rw [Yard.run]
      rcases (yields_step h ht hneg).cases with ⟨e, he, hplain⟩ | ⟨y', hy', hall⟩
      · rw [he]
        exact hplain
      · rw [hy']
        exact ih hall hts

theorem yields_drain {out ws : List Token} (hout : ∀ t ∈ out, Q t) (hws : ∀ t ∈ ws, Q t) :
    Yields EvalError.Plain (fun row => ∀ t ∈ row, Q t) (Yard.drain out ws) := by
  induction ws generalizing out with
  | nil => exact hout
  | cons w ws ih =>
      rcases List.forall_mem_cons.mp hws with ⟨hw, hws⟩
      rw [Yard.drain]
      split
      · exact rfl
      · exact ih (List.forall_mem_cons.mpr ⟨hw, hout⟩) hws

/-- A row in postfix order has the tokens of the row it is made from, beside the signs
    of operands. -/
theorem yields_ofTokens {ts : List Token} (hts : ∀ t ∈ ts, Q t) (hneg : Q .neg) :
    Yields EvalError.Plain (fun row => ∀ t ∈ row, Q t) (ofTokens ts) := by
  have hnothing : Yard.All Q .empty := ⟨List.forall_mem_nil Q, List.forall_mem_nil Q⟩
  unfold ofTokens
  rcases (yields_run hnothing hts hneg).cases with ⟨e, he, hplain⟩ | ⟨y, hy, hout, hwaiting⟩
  · rw [he]
    exact hplain
  · rw [hy]
    refine (yields_drain hout hwaiting).map fun row hrow t ht => ?_
    exact hrow t (List.mem_reverse.mp ht)

end Rows

section Trees

variable {P : String → Prop} {stack : List (Expr × Nat)}

/-- A token makes a tree of the names it finds, or adds one of its own. -/
theorem yields_reduce {t : Token} (ht : t.NamedBy P) (hstack : ∀ p ∈ stack, p.1.NamedBy P) :
    Yields EvalError.Plain (fun made => made.1.1.NamedBy P ∧ ∀ p ∈ made.2, p.1.NamedBy P)
      (Expr.reduce stack t) := by
  cases t with
  | num q => exact ⟨Expr.namedBy_rat q, hstack⟩
  | pi => exact ⟨List.forall_mem_nil P, hstack⟩
  | lparen | rparen => exact rfl
  | plus | minus | star | slash | caret =>
      rcases stack with _ | ⟨⟨b, db⟩, _ | ⟨⟨a, da⟩, stack⟩⟩
      · exact rfl
      · exact rfl
      · simp only [List.forall_mem_cons] at hstack
        refine ⟨?_, hstack.2.2⟩
        simp only [Expr.NamedBy, Postfix.names_operation]
        exact List.forall_mem_append.mpr ⟨hstack.2.1, hstack.1⟩
  | neg =>
      rcases stack with _ | ⟨⟨x, d⟩, stack⟩
      · exact rfl
      · exact List.forall_mem_cons.mp hstack
  | ident name =>
      simp only [Expr.reduce]
      split
      · rcases stack with _ | ⟨⟨x, d⟩, stack⟩
        · exact rfl
        · simp only [List.forall_mem_cons] at hstack
          refine ⟨?_, hstack.2⟩
          rw [Expr.NamedBy, Postfix.names_call]
          exact hstack.1
      · -- A name that calls nothing becomes a variable.
        rename_i hplain
        refine ⟨fun x hx => ?_, hstack⟩
        rw [List.mem_singleton.mp hx]
        exact ht name rfl (Bool.not_eq_true _ ▸ hplain)

theorem yields_reduceAll (bound : Nat) {row : List Token} (hrow : ∀ t ∈ row, t.NamedBy P)
    (hstack : ∀ p ∈ stack, p.1.NamedBy P) :
    Yields EvalError.Plain (fun made => ∀ p ∈ made, p.1.NamedBy P)
      (Expr.reduceAll bound stack row) := by
  induction row generalizing stack with
  | nil => exact hstack
  | cons t row ih =>
      rcases List.forall_mem_cons.mp hrow with ⟨ht, hrow⟩
      rw [Expr.reduceAll]
      rcases (yields_reduce ht hstack).cases with ⟨e, he, hplain⟩ | ⟨⟨top, rest⟩, hmade, hnamed⟩
      · rw [he]
        exact hplain
      · rw [hmade]
        simp only
        split
        · exact rfl
        · exact ih hrow (List.forall_mem_cons.mpr hnamed)

/-- The names of a tree are those of the row that lists it. -/
theorem yields_ofPostfix (bound : Nat) {row : List Token} (hrow : ∀ t ∈ row, t.NamedBy P) :
    Yields EvalError.Plain (Expr.NamedBy P) (Expr.ofPostfix bound row) := by
  unfold Expr.ofPostfix
  rcases (yields_reduceAll bound hrow (List.forall_mem_nil _)).cases with
    ⟨e, he, hplain⟩ | ⟨made, hmade, hnamed⟩
  · rw [he]
    exact hplain
  · rw [hmade]
    rcases made with _ | ⟨⟨e, d⟩, _ | ⟨p, made⟩⟩
    · exact rfl
    · exact hnamed _ List.mem_cons_self
    · exact rfl

/-- What holds of the names of all tokens holds of the names in the tree, and what holds
    of the errors of the tokenizer and of those that tell of no place holds of all. -/
theorem yields_parse_of_tokens {bound : Nat} {text : List Char} {E : EvalError → Prop}
    (h : Yields E (fun ts => ∀ t ∈ ts, t.NamedBy P) (Token.tokenize text))
    (hE : ∀ e : EvalError, e.Plain → E e) :
    Yields E (Expr.NamedBy P) (Exact.parse bound text) := by
  refine h.bind fun ts hts => ?_
  exact ((yields_ofTokens hts namedBy_neg).bind fun row hrow => yields_ofPostfix bound hrow).mono hE

/-- The names in a parsed tree are identifiers that are spelled with characters of the
    text, and a text that cannot be parsed is at fault in one of its places, if any is
    told of. -/
theorem yields_parse {bound : Nat} {text : List Char}
    (hP : ∀ name, Expr.IsIdentifier name → name.toList ⊆ text → P name) :
    Yields (·.Before (Token.limit 0 text)) (Expr.NamedBy P) (Exact.parse bound text) :=
  yields_parse_of_tokens (yields_tokenizeFrom 0 text hP) fun _ he => he.before _

theorem before_of_parse {bound : Nat} {text : List Char} {e : EvalError}
    (h : Exact.parse bound text = .error e) : e.Before (Token.limit 0 text) := by
  have hparse : Yields (·.Before (Token.limit 0 text)) (Expr.NamedBy fun _ => True)
      (Exact.parse bound text) := yields_parse fun _ _ _ => trivial
  rw [h] at hparse
  exact hparse

/-- Parsing tells of no circular definition. -/
theorem isCircular_of_parse {bound : Nat} {text : List Char} {e : EvalError}
    (h : Exact.parse bound text = .error e) : e.isCircular = false := (before_of_parse h).sound

end Trees

end ExactCalc
