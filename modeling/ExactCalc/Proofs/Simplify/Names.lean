import ExactCalc.Proofs.Readable
import ExactCalc.Proofs.Simplify.Inherited

/-!
# Names of a Simplified Tree

Simplifying brings no name into a tree.

A rule may lose names, as the difference of two equal trees does, but none makes
one up. What is said of every name in a tree so survives simplification, whatever
it is; `NamedBy` says it, and a tree inherits it from its operands.

## Main definitions

* `Expr.NamedBy`: Every name in a tree has a property.

## Theorems

* `namedBy_pair`: The names of an operation are those of its operands.
* `inherited_namedBy`: What is said of all names goes from operands to operations.
* `namedBy_simplify`: What holds of all names of a tree holds of those that are
  left.
-/

namespace ExactCalc

namespace Expr

/-- Every name in a tree has a property. -/
def NamedBy (P : String → Prop) (e : Expr) : Prop := ∀ name ∈ e.names, P name

section Combining

variable {P : String → Prop} {a b e : Expr}

theorem namedBy_rat (q : Rat) : (rat q).NamedBy P := List.forall_mem_nil P

/-- The names of an operation are those of its operands. -/
theorem namedBy_pair (he : e.names = a.names ++ b.names) :
    e.NamedBy P ↔ a.NamedBy P ∧ b.NamedBy P := by
  unfold NamedBy
  rw [he]
  exact List.forall_mem_append

theorem inherited_namedBy (P : String → Prop) : Inherited (NamedBy P) where
  rat := namedBy_rat
  sqrt := Iff.rfl
  abs := Iff.rfl
  add := namedBy_pair rfl
  sub := namedBy_pair rfl
  mul := namedBy_pair rfl

/-- What holds of all names of a tree holds of those that are left when it is
    simplified. -/
theorem namedBy_simplify {s : Expr} (hs : e.simplify = .ok s) (h : e.NamedBy P) :
    s.NamedBy P := by
  have hP := inherited_namedBy P
  rw [simplify_eq_ok] at hs
  induction hs with
  | rat | pi | var => exact h
  | sqrt _ ih => exact hP.root (ih h)
  | abs _ ih => exact hP.modulus (ih h)
  | pow _ _ hr iha ihb =>
      have hab := (namedBy_pair rfl).mp h
      have ha := iha hab.1
      have hb := ihb hab.2
      -- The names of a power with a whole exponent are those of its base.
      refine hP.raise (I := fun x _ => x.NamedBy P)
        (fun x n hx => ⟨hx, (namedBy_pair rfl).mpr ⟨hx, namedBy_rat _⟩⟩)
        (fun c x n hx => ((namedBy_pair rfl).mp hx).2) (fun x n hx => hx) hr
        (fun _ => (namedBy_pair rfl).mpr ⟨ha, hb⟩) (fun _ _ => ha)
  | add _ _ iha ihb =>
      have hab := (namedBy_pair rfl).mp h
      exact hP.plus (iha hab.1) (ihb hab.2)
  | sub _ _ iha ihb =>
      have hab := (namedBy_pair rfl).mp h
      exact hP.minus (iha hab.1) (ihb hab.2)
  | mul _ _ iha ihb =>
      have hab := (namedBy_pair rfl).mp h
      exact hP.times (iha hab.1) (ihb hab.2)
  | div _ _ iha ihb =>
      have hab := (namedBy_pair rfl).mp h
      have ha := iha hab.1
      exact hP.quotient ha ((namedBy_pair rfl).mpr ⟨ha, ihb hab.2⟩)

end Combining

end Expr

end ExactCalc
