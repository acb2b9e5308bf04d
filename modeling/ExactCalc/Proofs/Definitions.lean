import ExactCalc.Engine.Exact
import ExactCalc.Proofs.Readable
import ExactCalc.Proofs.Trail
import Mathlib.Logic.Relation

/-!
# Definitions of Named Constants

Putting definitions into an expression ends in the expression they stand for, or
finds a constant that is defined through itself.

A constant uses the names in its definition, and this relation says all there is
to say about cycles. A constant is circular if it uses itself over one step or
several. Names that have no definition, because nothing is registered for them
or only a blank value, use nothing and stay symbols.

What the engine does is a matter of two relations. `Resolved` relates a tree to
what becomes of it, with no mention of the names not yet being followed: a tree
that has such a derivation reaches no circular name, since a derivation is
finite. And a name that is met a second time while it is being followed is
circular, since every name being followed uses every name met from there on;
`Following` is that invariant. So the one outcome excludes the other, and the
engine always comes to one of them.

A constant may be used twice side by side. Nothing speaks against that, because
a name is being followed only in its own definition.

## Main definitions

* `Ends`: How work ends, whatever trail it starts with.
* `parse`, `Readable`: What a text and the values of a registry are read as.
* `definition?`: The tree a name is defined as.
* `Uses`, `Reaches`, `Circular`: The names behind a name.
* `Resolved`: A tree with all definitions put in.
* `Interpretation.Solves`: Values of names that agree with their definitions.

## Theorems

* `ends_substitute`: Replacing the variables of a tree one after the other.
* `ends_definition`: Reading a value ends in the definition of its name.
* `ends_resolve_or`, `ends_resolve`: Resolving ends in a resolved tree or at a
  circular name, unless a definition cannot be read.
* `Resolved.not_circular`: A resolved tree reaches no circular name.
* `Solves.value_eq`, `solves_chosen`: The value of a resolved tree.
* `resolve_settles`: Definitions are put in completely, and exactly the cycles
  are found.
-/

namespace ExactCalc

universe u

namespace Exact

open Relation (ReflTransGen TransGen)

section Ending

variable {ε α β : Type} {P : Except ε α → Prop} {Q : Except ε β → Prop}

/-- Work ends with a property, whatever trail it starts with. -/
def Ends (w : WorkUntil ε α) (P : Except ε α → Prop) : Prop :=
  ∀ t, P (w.run.run t).1

theorem ends_pure {a : α} (h : P (.ok a)) : Ends (pure a) P :=
  fun _ => h

theorem ends_throw {e : ε} (h : P (.error e)) : Ends (throw e) P :=
  fun _ => h

theorem ends_lift {r : Except ε α} (h : P r) : Ends (lift r) P :=
  fun _ => h

/-- Work in two steps, the second of which starts with the trail of the first. -/
theorem ends_bind {w : WorkUntil ε α} {f : α → WorkUntil ε β} (hw : Ends w P)
    (hf : ∀ a, P (.ok a) → Ends (f a) Q) (he : ∀ e, P (.error e) → Q (.error e)) :
    Ends (w >>= f) Q := by
  intro t
  have hP := hw t
  rw [ExceptT.run_bind, StateT.run_bind]
  rcases hrun : w.run.run t with ⟨e | a, t'⟩
  · rw [hrun] at hP
    exact he e hP
  · rw [hrun] at hP
    exact hf a hP t'

/-- Work that may fail ends where it may also break down as it does on its own. -/
theorem ends_toRendering {w : Work α} {P : Except Stop α → Prop}
    (hw : Ends w fun r => P (r.mapError Stop.failure)) : Ends (toRendering w) P := hw

/-- Work whose errors are told in another way. -/
theorem ends_rethrow {P Q : Except EvalError α → Prop} {w : Work α} (f : EvalError → EvalError)
    (hw : Ends w P) (hok : ∀ a, P (.ok a) → Q (.ok a))
    (he : ∀ e, P (.error e) → Q (.error (f e))) : Ends (tryCatch w fun e => throw (f e)) Q := by
  intro t
  have hP := hw t
  rw [ExceptT.run_tryCatch, StateT.run_bind]
  rcases hrun : w.run.run t with ⟨e | a, t'⟩ <;> rw [hrun] at hP
  · exact he e hP
  · exact hok a hP

end Ending

/-- The tree of a text, no deeper than the bound. -/
def parse (bound : Nat) (text : List Char) : Except EvalError Expr :=
  Token.tokenize text >>= fun tokens => Postfix.ofTokens tokens >>= Expr.ofPostfix bound

/-- Beside parsing, reading a text only writes into the journal. -/
theorem ends_read (bound : Nat) (text : List Char) :
    Ends (read bound text) (· = parse bound text) := by
  intro t
  unfold read parse
  rcases Token.tokenize text with e | tokens
  · rfl
  show (ExceptT.run (do
    let row ← lift (Postfix.ofTokens tokens)
    note (readingRecord tokens row)
    lift (Expr.ofPostfix bound row)) t).1 = Postfix.ofTokens tokens >>= Expr.ofPostfix bound
  rcases Postfix.ofTokens tokens with e | row <;> rfl

/-- Every value of a registry that is not blank can be read. -/
def Readable (registry : Registry) (bound : Nat) : Prop :=
  ∀ v ∈ registry.entries, isBlankText v.value = false →
    ∃ tree, parse bound v.value.toList = .ok tree

/-- The tree a name is defined as, if it has a value and that can be read. -/
def definition? (registry : Registry) (bound : Nat) (name : String) : Option Expr :=
  match registry.find? name with
  | none => none
  | some v => if isBlankText v.value then none else (parse bound v.value.toList).toOption

section Names

variable (registry : Registry) (bound : Nat)

/-- A name stands in the definition of another. -/
def Uses (x y : String) : Prop :=
  ∃ tree, definition? registry bound x = some tree ∧ y ∈ tree.names

/-- A name stands in a tree, or behind a name that does. -/
def Reaches (e : Expr) (x : String) : Prop :=
  ∃ y ∈ e.names, ReflTransGen (Uses registry bound) y x

/-- A name uses itself, over one step or several. -/
def Circular (x : String) : Prop :=
  TransGen (Uses registry bound) x x

/-- A tree and what it becomes once all definitions are put in. -/
inductive Resolved : Expr → Expr → Prop where
  | rat (q : Rat) : Resolved (.rat q) (.rat q)
  | pi : Resolved .pi .pi
  | symbol {name : String} (h : definition? registry bound name = none) :
      Resolved (.var name) (.var name)
  | defined {name : String} {tree r : Expr} (h : definition? registry bound name = some tree)
      (hr : Resolved tree r) : Resolved (.var name) r
  | sqrt {x r : Expr} (h : Resolved x r) : Resolved (.sqrt x) (.sqrt r)
  | abs {x r : Expr} (h : Resolved x r) : Resolved (.abs x) (.abs r)
  | pow {a b r s : Expr} (ha : Resolved a r) (hb : Resolved b s) :
      Resolved (.pow a b) (.pow r s)
  | add {a b r s : Expr} (ha : Resolved a r) (hb : Resolved b s) :
      Resolved (.add a b) (.add r s)
  | sub {a b r s : Expr} (ha : Resolved a r) (hb : Resolved b s) :
      Resolved (.sub a b) (.sub r s)
  | mul {a b r s : Expr} (ha : Resolved a r) (hb : Resolved b s) :
      Resolved (.mul a b) (.mul r s)
  | div {a b r s : Expr} (ha : Resolved a r) (hb : Resolved b s) :
      Resolved (.div a b) (.div r s)

/-- How resolving a tree ends: with the resolved tree, or with one of the errors
    allowed. -/
def Outcome (e : Expr) (stop : EvalError → Prop) : Except EvalError Expr → Prop
  | .ok r => Resolved registry bound e r
  | .error err => stop err

/-- The error of a circular name behind a tree. -/
def StopsAt (e : Expr) (err : EvalError) : Prop :=
  ∃ x, err = .arithmetic (.circularDefinition x) ∧ Reaches registry bound e x ∧
    Circular registry bound x

/-- The defined names that are being followed use every name of a tree. -/
def Following (free : List String) (e : Expr) : Prop :=
  ∀ x tree, definition? registry bound x = some tree → x ∉ free →
    ∀ y ∈ e.names, TransGen (Uses registry bound) x y

end Names

section Resolving

variable {registry : Registry} {bound : Nat} {a b e r s tree : Expr} {name x y : String}

theorem definition?_of_not_blank {v : Variable} (hfind : registry.find? name = some v)
    (hvalue : isBlankText v.value = false) (hparse : parse bound v.value.toList = .ok tree) :
    definition? registry bound name = some tree := by
  rw [definition?, hfind]
  simp only [hvalue, Bool.false_eq_true, if_false, hparse]
  rfl

/-- Where every value can be read, a name without a definition has no value. -/
theorem isBlank_of_definition? (hread : Readable registry bound)
    (h : definition? registry bound name = none) {v : Variable}
    (hfind : registry.find? name = some v) : isBlankText v.value = true := by
  rw [← Bool.not_eq_false]
  intro hvalue
  rcases hread v (List.mem_of_find?_eq_some hfind) hvalue with ⟨tree, hparse⟩
  rw [definition?_of_not_blank hfind hvalue hparse] at h
  cases h

theorem mem_names_of_find? {v : Variable} (h : registry.find? name = some v) :
    name ∈ registry.names := by
  have hname := List.find?_some h
  rw [beq_iff_eq] at hname
  exact List.mem_map.mpr ⟨v, List.mem_of_find?_eq_some h, hname⟩

/-- Only names that are taken have a definition. -/
theorem mem_names_of_definition? (h : definition? registry bound name = some tree) :
    name ∈ registry.names := by
  unfold definition? at h
  rcases hfind : registry.find? name with _ | v
  · rw [hfind] at h
    cases h
  · exact mem_names_of_find? hfind

theorem reaches_of_mem (h : x ∈ e.names) : Reaches registry bound e x :=
  ⟨x, h, .refl⟩

/-- What an operand reaches is reached by the whole. -/
theorem Reaches.left (h : Reaches registry bound a x) (he : e.names = a.names ++ b.names) :
    Reaches registry bound e x := by
  rcases h with ⟨y, hy, hyx⟩
  exact ⟨y, he ▸ List.mem_append_left _ hy, hyx⟩

theorem Reaches.right (h : Reaches registry bound b x) (he : e.names = a.names ++ b.names) :
    Reaches registry bound e x := by
  rcases h with ⟨y, hy, hyx⟩
  exact ⟨y, he ▸ List.mem_append_right _ hy, hyx⟩

/-- A name reaches whatever its definition reaches. -/
theorem Reaches.of_definition (hname : name ∈ e.names)
    (hdef : definition? registry bound name = some tree) (h : Reaches registry bound tree x) :
    Reaches registry bound e x := by
  rcases h with ⟨y, hy, hyx⟩
  exact ⟨name, hname, .head ⟨tree, hdef, hy⟩ hyx⟩

/-- What is behind a name that another uses is behind the definition of that other. -/
theorem reaches_of_uses (hdef : definition? registry bound name = some tree)
    (h : Uses registry bound name y) (hyx : ReflTransGen (Uses registry bound) y x) :
    Reaches registry bound tree x := by
  rcases h with ⟨tree', hdef', hy⟩
  rw [hdef, Option.some.injEq] at hdef'
  exact ⟨y, hdef' ▸ hy, hyx⟩

theorem reaches_or (he : e.names = a.names ++ b.names) (h : Reaches registry bound e x) :
    Reaches registry bound a x ∨ Reaches registry bound b x := by
  rcases h with ⟨y, hy, hyx⟩
  rw [he, List.mem_append] at hy
  rcases hy with hy | hy
  · exact .inl ⟨y, hy, hyx⟩
  · exact .inr ⟨y, hy, hyx⟩

/-- Two operands, one after the other. -/
theorem ends_both {lookup : String → Work (Option Expr)} {stop : EvalError → Prop}
    {make : Expr → Expr → Expr}
    (hmake : ∀ r s, Resolved registry bound a r → Resolved registry bound b s →
      Resolved registry bound (make a b) (make r s))
    (ha : Ends (a.substitute lookup) (Outcome registry bound a stop))
    (hb : Ends (b.substitute lookup) (Outcome registry bound b stop)) :
    Ends (do
      let r ← a.substitute lookup
      let s ← b.substitute lookup
      pure (make r s)) (Outcome registry bound (make a b) stop) :=
  ends_bind ha (fun r hr => ends_bind hb (fun s hs => ends_pure (hmake r s hr hs))
    (fun _ he => he)) (fun _ he => he)

/-- The variables of a tree are replaced one after the other, up to the first
    that cannot be. -/
theorem ends_substitute {lookup : String → Work (Option Expr)} {stop : EvalError → Prop}
    (h : ∀ name ∈ e.names, Ends (lookup name) fun
      | .ok found => Resolved registry bound (.var name) (found.getD (.var name))
      | .error err => stop err) :
    Ends (e.substitute lookup) (Outcome registry bound e stop) := by
  induction e with
  | rat q => exact ends_pure (.rat q)
  | pi => exact ends_pure .pi
  | var name =>
      exact ends_bind (h name List.mem_cons_self) (fun found hfound => ends_pure hfound)
        (fun _ he => he)
  | sqrt x ih => exact ends_bind (ih h) (fun r hr => ends_pure (.sqrt hr)) (fun _ he => he)
  | abs x ih => exact ends_bind (ih h) (fun r hr => ends_pure (.abs hr)) (fun _ he => he)
  | pow a b iha ihb | add a b iha ihb | sub a b iha ihb | mul a b iha ihb | div a b iha ihb =>
      have hleft := iha (fun name hname => h name (List.mem_append_left _ hname))
      have hright := ihb (fun name hname => h name (List.mem_append_right _ hname))
      exact ends_both (fun r s hr hs => by constructor <;> assumption) hleft hright

/-- Following one more name keeps the invariant in its definition. -/
theorem Following.erase {free : List String} (h : Following registry bound free e)
    (hname : name ∈ e.names) (hdef : definition? registry bound name = some tree) :
    Following registry bound (free.erase name) tree := by
  intro x tree' hx hfree y hy
  have huses : Uses registry bound name y := ⟨tree, hdef, hy⟩
  by_cases hxname : x = name
  · rw [hxname]
    exact .single huses
  · -- Every other name that is being followed has used this one already.
    have hx' : x ∉ free := fun hmem => hfree ((List.mem_erase_of_ne hxname).mpr hmem)
    exact .tail (h x tree' hx hx' name hname) huses

/-- Reading a value ends in the definition of its name, or in a fault that is told as one
    of that name. -/
theorem ends_definition {faulty : EvalError → Prop} {v : Variable}
    (hfaulty : ∀ err, parse bound v.value.toList = .error err → faulty (blame v.name err))
    (hfind : registry.find? name = some v) (hvalue : isBlankText v.value = false) :
    Ends (tryCatch (read bound v.value.toList) fun err => throw (blame name err)) fun
      | .ok tree => definition? registry bound name = some tree
      | .error err => faulty err := by
  have hname := List.find?_some hfind
  rw [beq_iff_eq] at hname
  refine ends_rethrow _ (ends_read bound _) (fun tree htree => ?_) (fun err herr => ?_)
  · exact definition?_of_not_blank hfind hvalue htree.symm
  · exact hname ▸ hfaulty err herr.symm

/-- Resolving ends in the resolved tree, at a circular name, or in the fault of a
    definition that cannot be read. The names that are being followed have been read. -/
theorem ends_resolve_or (faulty : EvalError → Prop)
    (hfaulty : ∀ v ∈ registry.entries, isBlankText v.value = false → ∀ err,
      parse bound v.value.toList = .error err → faulty (blame v.name err))
    (free : List String) (e : Expr) (hfollowing : Following registry bound free e)
    (hread : ∀ x v, registry.find? x = some v → isBlankText v.value = false → x ∉ free →
      ∃ tree, definition? registry bound x = some tree) :
    Ends (resolve registry bound free e)
      (Outcome registry bound e fun err => StopsAt registry bound e err ∨ faulty err) := by
  induction free using free_induction generalizing e with
  | step free ih =>
      rw [resolve]
      refine ends_substitute (fun name hname => ?_)
      rcases hfind : registry.find? name with _ | v
      · refine ends_pure (.symbol ?_)
        rw [definition?, hfind]
      cases hvalue : isBlankText v.value with
      | true =>
          have hnone : definition? registry bound name = none := by
            rw [definition?, hfind]
            simp only [hvalue, if_true]
          simp only [hvalue, if_true]
          refine ends_bind (P := fun r => ∃ u, r = .ok u) (fun t => ⟨(), rfl⟩)
            (fun _ _ => ends_pure (.symbol hnone)) (fun _ he => ?_)
          rcases he with ⟨_, he⟩
          cases he
      | false =>
          simp only [hvalue, Bool.false_eq_true, if_false]
          by_cases hfree : name ∈ free
          · rw [dif_pos hfree]
            refine ends_bind (ends_definition (hfaulty v (List.mem_of_find?_eq_some hfind) hvalue)
              hfind hvalue) (fun tree hdef => ?_) (fun _ herr => .inr herr)
            -- The value has been read, so the name may count as one that is being followed.
            have hread' : ∀ x v, registry.find? x = some v → isBlankText v.value = false →
                x ∉ free.erase name → ∃ tree, definition? registry bound x = some tree := by
              intro x w hx hw hout
              by_cases hxname : x = name
              · exact ⟨tree, hxname ▸ hdef⟩
              · exact hread x w hx hw fun hmem => hout ((List.mem_erase_of_ne hxname).mpr hmem)
            have hrest := ih name hfree tree (hfollowing.erase hname hdef) hread'
            refine ends_bind hrest (fun r hr => ends_pure (.defined hdef hr))
              (fun err herr => herr.imp_left ?_)
            rintro ⟨x, herr, hreach, hcircular⟩
            exact ⟨x, herr, hreach.of_definition hname hdef, hcircular⟩
          · -- The name is being followed, so it uses every name of the tree and itself.
            rcases hread name v hfind hvalue hfree with ⟨tree, hdef⟩
            rw [dif_neg hfree]
            exact ends_throw (.inl
              ⟨name, rfl, reaches_of_mem hname, hfollowing name tree hdef hfree name hname⟩)

/-- Where every value can be read, resolving ends in the resolved tree or at a circular
    name. -/
theorem ends_resolve (hread : Readable registry bound) (free : List String) (e : Expr)
    (hfollowing : Following registry bound free e) :
    Ends (resolve registry bound free e)
      (Outcome registry bound e (StopsAt registry bound e)) := by
  have hfaulty : ∀ v ∈ registry.entries, isBlankText v.value = false → ∀ err,
      parse bound v.value.toList = .error err → False := by
    intro v hv hvalue err herr
    rcases hread v hv hvalue with ⟨tree, htree⟩
    rw [htree] at herr
    cases herr
  have hdefined : ∀ x v, registry.find? x = some v → isBlankText v.value = false → x ∉ free →
      ∃ tree, definition? registry bound x = some tree := by
    intro x v hfind hvalue _
    rcases hread v (List.mem_of_find?_eq_some hfind) hvalue with ⟨tree, htree⟩
    exact ⟨tree, definition?_of_not_blank hfind hvalue htree⟩
  have hends := ends_resolve_or (fun _ => False) hfaulty free e hfollowing hdefined
  simpa only [or_false] using hends

/-- A finite derivation follows no name into itself. -/
theorem Resolved.not_circular (h : Resolved registry bound e r) :
    ∀ x, Reaches registry bound e x → ¬Circular registry bound x := by
  induction h with
  | rat | pi =>
      rintro x ⟨y, hy, -⟩
      exact absurd hy List.not_mem_nil
  | @symbol name hnone =>
      have hnothing : ∀ y, ¬Uses registry bound name y := by
        rintro y ⟨tree, hdef, -⟩
        rw [hnone] at hdef
        cases hdef
      rintro x ⟨y, hy, hyx⟩ hcircular
      rw [List.mem_singleton.mp hy] at hyx
      rcases Relation.ReflTransGen.cases_head hyx with hname | ⟨z, huses, -⟩
      · rcases Relation.TransGen.head'_iff.mp hcircular with ⟨z, huses, -⟩
        exact hnothing z (hname ▸ huses)
      · exact hnothing z huses
  | @defined name tree r hdef hr ih =>
      rintro x ⟨y, hy, hyx⟩ hcircular
      rw [List.mem_singleton.mp hy] at hyx
      rcases Relation.ReflTransGen.cases_head hyx with hname | ⟨z, huses, hzx⟩
      · -- The way from the name back to itself leads through its own definition.
        rcases Relation.TransGen.head'_iff.mp hcircular with ⟨z, huses, hzx⟩
        rw [← hname] at huses hzx
        exact ih name (reaches_of_uses hdef huses hzx) (hname ▸ hcircular)
      · exact ih x (reaches_of_uses hdef huses hzx) hcircular
  | sqrt _ ih | abs _ ih => exact ih
  | pow _ _ iha ihb | add _ _ iha ihb | sub _ _ iha ihb | mul _ _ iha ihb | div _ _ iha ihb =>
      intro x hx
      rcases reaches_or rfl hx with hx | hx
      · exact iha x hx
      · exact ihb x hx

/-- A tree is resolved in one way only. -/
theorem Resolved.unique (hr : Resolved registry bound e r) (hs : Resolved registry bound e s) :
    r = s := by
  induction hr generalizing s with
  | rat q => cases hs; rfl
  | pi => cases hs; rfl
  | symbol hnone =>
      cases hs with
      | symbol => rfl
      | defined hdef =>
          rw [hnone] at hdef
          cases hdef
  | defined hdef _ ih =>
      cases hs with
      | symbol hnone =>
          rw [hnone] at hdef
          cases hdef
      | defined hdef' hs =>
          rw [hdef, Option.some.injEq] at hdef'
          exact ih (hdef' ▸ hs)
  | sqrt _ ih => cases hs with | sqrt hs => rw [ih hs]
  | abs _ ih => cases hs with | abs hs => rw [ih hs]
  | pow _ _ iha ihb => cases hs with | pow ha hb => rw [iha ha, ihb hb]
  | add _ _ iha ihb => cases hs with | add ha hb => rw [iha ha, ihb hb]
  | sub _ _ iha ihb => cases hs with | sub ha hb => rw [iha ha, ihb hb]
  | mul _ _ iha ihb => cases hs with | mul ha hb => rw [iha ha, ihb hb]
  | div _ _ iha ihb => cases hs with | div ha hb => rw [iha ha, ihb hb]

/-- Only names without a definition are left. -/
theorem Resolved.definition?_eq_none (h : Resolved registry bound e r) :
    ∀ x ∈ r.names, definition? registry bound x = none := by
  induction h with
  | rat | pi => exact fun x hx => absurd hx List.not_mem_nil
  | symbol hnone =>
      intro x hx
      rw [List.mem_singleton.mp hx]
      exact hnone
  | defined _ _ ih => exact ih
  | sqrt _ ih | abs _ ih => exact ih
  | pow _ _ iha ihb | add _ _ iha ihb | sub _ _ iha ihb | mul _ _ iha ihb | div _ _ iha ihb =>
      intro x hx
      exact (List.mem_append.mp hx).elim (iha x) (ihb x)

/-- Every name of a resolved tree has been resolved on its own. -/
theorem Resolved.of_mem (h : Resolved registry bound e r) :
    ∀ x ∈ e.names, ∃ s, Resolved registry bound (.var x) s := by
  induction h with
  | rat | pi => exact fun x hx => absurd hx List.not_mem_nil
  | symbol hnone =>
      intro x hx
      rw [List.mem_singleton.mp hx]
      exact ⟨_, .symbol hnone⟩
  | defined hdef hr _ =>
      intro x hx
      rw [List.mem_singleton.mp hx]
      exact ⟨_, .defined hdef hr⟩
  | sqrt _ ih | abs _ ih => exact ih
  | pow _ _ iha ihb | add _ _ iha ihb | sub _ _ iha ihb | mul _ _ iha ihb | div _ _ iha ihb =>
      intro x hx
      exact (List.mem_append.mp hx).elim (iha x) (ihb x)

theorem Resolved.of_definition (h : Resolved registry bound (.var name) r)
    (hdef : definition? registry bound name = some tree) : Resolved registry bound tree r := by
  cases h with
  | symbol hnone =>
      rw [hnone] at hdef
      cases hdef
  | defined hdef' hr =>
      rw [hdef, Option.some.injEq] at hdef'
      exact hdef' ▸ hr

/-- And so has every name behind it. -/
theorem Resolved.of_reaches (h : Resolved registry bound e r)
    (hx : Reaches registry bound e x) : ∃ s, Resolved registry bound (.var x) s := by
  rcases hx with ⟨y, hy, hyx⟩
  induction hyx with
  | refl => exact h.of_mem y hy
  | tail _ huses ih =>
      rcases ih with ⟨s, hs⟩
      rcases huses with ⟨tree, hdef, hz⟩
      exact (hs.of_definition hdef).of_mem _ hz

end Resolving

end Exact

namespace Interpretation

open Exact (Resolved Reaches definition?)

variable {K : Type u} [Field K]

/-- The interpretation with other values for the names. -/
def withNamed (I : Interpretation K) (named : String → K) : Interpretation K :=
  { I with named }

/-- Values of names that agree with an interpretation where nothing is defined, and
    give every defined name behind a tree the value of its own definition. -/
structure Solves (I : Interpretation K) (registry : Registry) (bound : Nat) (e : Expr)
    (named : String → K) : Prop where
  symbol : ∀ x, definition? registry bound x = none → named x = I.named x
  defined : ∀ x tree, Reaches registry bound e x → definition? registry bound x = some tree →
    named x = (I.withNamed named).value tree

open Classical in
/-- The value of every name that can be resolved. -/
noncomputable def chosen (I : Interpretation K) (registry : Registry) (bound : Nat)
    (x : String) : K :=
  if h : ∃ r, Resolved registry bound (.var x) r then I.value h.choose else I.named x

variable {I : Interpretation K} {registry : Registry} {bound : Nat} {e r : Expr} {x : String}
  {named : String → K}

/-- A resolved tree has the value of the tree, if each name behind it that is
    defined stands for the value its definition is resolved to. -/
theorem value_of_resolved (behind : String → Prop) (h : Resolved registry bound e r)
    (hsymbol : ∀ x, definition? registry bound x = none → named x = I.named x)
    (hdefined : ∀ x tree s, behind x → definition? registry bound x = some tree →
      Resolved registry bound tree s → I.value s = (I.withNamed named).value tree →
        named x = I.value s)
    (he : ∀ x, Reaches registry bound e x → behind x) :
    I.value r = (I.withNamed named).value e := by
  induction h with
  | rat | pi => rfl
  | @symbol name hnone => exact (hsymbol name hnone).symm
  | @defined name tree r hdef hr ih =>
      have hname := he name (Exact.reaches_of_mem List.mem_cons_self)
      have htree := ih (fun x hx => he x (hx.of_definition List.mem_cons_self hdef))
      exact (hdefined name tree r hname hdef hr htree).symm
  | sqrt _ ih => exact congrArg I.sqrt (ih he)
  | abs _ ih => exact congrArg I.abs (ih he)
  | pow _ _ iha ihb =>
      exact congrArg₂ I.power (iha fun x hx => he x (hx.left rfl))
        (ihb fun x hx => he x (hx.right rfl))
  | add _ _ iha ihb =>
      exact congrArg₂ (· + ·) (iha fun x hx => he x (hx.left rfl))
        (ihb fun x hx => he x (hx.right rfl))
  | sub _ _ iha ihb =>
      exact congrArg₂ (· - ·) (iha fun x hx => he x (hx.left rfl))
        (ihb fun x hx => he x (hx.right rfl))
  | mul _ _ iha ihb =>
      exact congrArg₂ (· * ·) (iha fun x hx => he x (hx.left rfl))
        (ihb fun x hx => he x (hx.right rfl))
  | div _ _ iha ihb =>
      exact congrArg₂ I.divide (iha fun x hx => he x (hx.left rfl))
        (ihb fun x hx => he x (hx.right rfl))

/-- A resolved tree has the value of the tree under all values that agree with the
    definitions. -/
theorem Solves.value_eq (hsolves : I.Solves registry bound e named)
    (h : Resolved registry bound e r) : I.value r = (I.withNamed named).value e := by
  refine value_of_resolved _ h hsolves.symbol (fun x tree s hx hdef _ hs => ?_) (fun _ hx => hx)
  rw [hs]
  exact hsolves.defined x tree hx hdef

theorem chosen_eq (h : Resolved registry bound (.var x) r) :
    I.chosen registry bound x = I.value r := by
  have hex : ∃ s, Resolved registry bound (.var x) s := ⟨r, h⟩
  rw [chosen, dif_pos hex, hex.choose_spec.unique h]

/-- Where a tree can be resolved, there are values that agree with the definitions
    of all names behind it. -/
theorem solves_chosen (h : Resolved registry bound e r) :
    I.Solves registry bound e (I.chosen registry bound) := by
  refine ⟨fun x hnone => chosen_eq (.symbol hnone), fun x tree hx hdef => ?_⟩
  rcases h.of_reaches hx with ⟨s, hs⟩
  rw [chosen_eq hs]
  exact value_of_resolved (fun _ => True) (hs.of_definition hdef)
    (fun y hnone => chosen_eq (.symbol hnone))
    (fun y tree' s' _ hdef' hs' _ => chosen_eq (.defined hdef' hs')) (fun _ _ => trivial)

end Interpretation

namespace Exact

/-- What comes of putting the definitions of a registry into a tree. -/
def resolution (registry : Registry) (bound : Nat) (e : Expr) (trail : Trail) :
    Except EvalError Expr :=
  ((resolve registry bound registry.names e).run.run trail).1

/-- Where every value of a registry can be read, definitions are put into a tree
    exactly if no circular name lies behind it, and such a name is the only thing
    that is ever complained of. What is left are names without a value, and the
    result has the value of the tree, whatever those names stand for, with every
    defined name standing for the value of its own definition; values of names that
    agree with the definitions so exist. -/
theorem resolve_settles (registry : Registry) (bound : Nat) (e : Expr)
    (hread : Readable registry bound) (trail : Trail) :
    ((∃ r, resolution registry bound e trail = .ok r) ↔
      ¬∃ x, Reaches registry bound e x ∧ Circular registry bound x) ∧
    (∀ err, resolution registry bound e trail = .error err →
      ∃ x, err = .arithmetic (.circularDefinition x) ∧ Reaches registry bound e x ∧
        Circular registry bound x) ∧
    ∀ r, resolution registry bound e trail = .ok r →
      (∀ x ∈ r.names, ∀ v, registry.find? x = some v → isBlankText v.value = true) ∧
      ∀ (K : Type u) [Field K] (I : Interpretation K),
        (∃ named, I.Solves registry bound e named) ∧
        ∀ named, I.Solves registry bound e named → I.value r = (I.withNamed named).value e := by
  -- At first every name is free, so none of those that have a definition is being followed.
  have hfollowing : Following registry bound registry.names e :=
    fun x tree hdef hfree => absurd (mem_names_of_definition? hdef) hfree
  have hends : Outcome registry bound e (StopsAt registry bound e)
      (resolution registry bound e trail) := ends_resolve hread registry.names e hfollowing trail
  rcases hres : resolution registry bound e trail with err | r
  · rw [hres] at hends
    rcases hends with ⟨x, herr, hx⟩
    refine ⟨iff_of_false ?_ (fun hnone => hnone ⟨x, hx⟩), ?_, ?_⟩
    · simp only [reduceCtorEq, exists_false, not_false_eq_true]
    · intro err' herr'
      rw [Except.error.injEq] at herr'
      exact ⟨x, herr' ▸ herr, hx⟩
    · intro r hr
      cases hr
  · rw [hres] at hends
    have hresolved : Resolved registry bound e r := hends
    refine ⟨iff_of_true ⟨r, rfl⟩ ?_, ?_, ?_⟩
    · rintro ⟨x, hreach, hcircular⟩
      exact hresolved.not_circular x hreach hcircular
    · intro err herr
      cases herr
    · intro r' hr'
      rw [Except.ok.injEq] at hr'
      subst hr'
      refine ⟨fun x hx v hfind => ?_, fun K _ I => ⟨⟨_, I.solves_chosen hresolved⟩, ?_⟩⟩
      · exact isBlank_of_definition? hread (hresolved.definition?_eq_none x hx) hfind
      · exact fun named hnamed => hnamed.value_eq hresolved

/-- Constants that are defined through others: `a` uses `b` twice and `c`, which has
    no value, while `f` and `g` use each other. -/
def linked : Registry :=
  ⟨[.plain "a" "b*b+c", .plain "b" "2", .plain "c" " ", .plain "f" "2*g", .plain "g" "f-1",
    .circleRatio]⟩

theorem linked_settles : Readable linked 5 ∧
    (¬∃ x, Reaches linked 5 (.mul (.var "b") (.var "a")) x ∧ Circular linked 5 x) ∧
    ∃ x, resolution linked 5 (.add (.var "a") (.var "g")) .empty =
        .error (.arithmetic (.circularDefinition x)) ∧ Circular linked 5 x := by
  have hread : Readable linked 5 := by
    intro v hv hvalue
    simp only [linked, List.mem_cons, List.not_mem_nil, or_false] at hv
    rcases hv with rfl | rfl | rfl | rfl | rfl | rfl
    · exact ⟨.add (.mul (.var "b") (.var "b")) (.var "c"), by decide +kernel⟩
    · exact ⟨.rat 2, by decide +kernel⟩
    · exact absurd hvalue (by decide)
    · exact ⟨.mul (.rat 2) (.var "g"), by decide +kernel⟩
    · exact ⟨.sub (.var "f") (.rat 1), by decide +kernel⟩
    · exact ⟨.pi, by decide +kernel⟩
  have hok : resolution linked 5 (.mul (.var "b") (.var "a")) .empty =
      .ok (.mul (.rat 2) (.add (.mul (.rat 2) (.rat 2)) (.var "c"))) := by decide +kernel
  have herr : resolution linked 5 (.add (.var "a") (.var "g")) .empty =
      .error (.arithmetic (.circularDefinition "g")) := by decide +kernel
  have hplain := resolve_settles.{0} linked 5 (.mul (.var "b") (.var "a")) hread .empty
  have hloop := resolve_settles.{0} linked 5 (.add (.var "a") (.var "g")) hread .empty
  refine ⟨hread, hplain.1.mp ⟨_, hok⟩, ?_⟩
  rcases hloop.2.1 _ herr with ⟨x, hx, -, hcircular⟩
  exact ⟨x, herr.trans (congrArg Except.error hx), hcircular⟩

end Exact

end ExactCalc
