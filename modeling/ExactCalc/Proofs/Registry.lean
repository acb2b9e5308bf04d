import ExactCalc.Registry
import Mathlib.Data.List.DropRight

/-!
# What Protects a Constant

What is left of a constant of the calculator's own after any number of changes.

Removing spares such a constant, but saving replaces whatever has the name, and what
is saved need not be protected. What counts is therefore the variable that was saved
last under the name. If that is a constant of the calculator's own, it is still there
and is nothing else. If not, the name has become that of an ordinary variable, which
the next removal takes away.

## Main definitions

* `Registry.Change`, `Registry.after`: Saving and removing, any number of times.
* `Registry.savedUnder`, `Registry.lastSaved`: What has been saved under a name.
* `Registry.sinceSaved`: What has been done since then.

## Theorems

* `find?_changed`: What a change does to the entry of a name.
* `find?_after`: What any number of changes leave of an entry.
* `circleRatio_kept_iff`: When the constant the calculator defines is still there.
-/

namespace ExactCalc

namespace Registry

/-- What can be done to a registry. -/
inductive Change where
  | save (v : Variable)
  | remove (name : String)
  deriving DecidableEq, Repr

namespace Change

/-- The name that is concerned. -/
def name : Change → String
  | save v => v.name
  | remove name => name

/-- What is saved under a name. -/
def saved? (name : String) : Change → Option Variable
  | save v => if v.name = name then some v else none
  | remove _ => none

/-- The entry of a name after a change, from what it was before. -/
def entry (name : String) (c : Change) (before : Option Variable) : Option Variable :=
  match c with
  | save v => if v.name = name then some v else before
  | remove other => if other = name then before.filter (·.system) else before

end Change

/-- The registry after a change. -/
def changed (r : Registry) : Change → Registry
  | .save v => r.save v
  | .remove name => (r.remove name).2

/-- The registry after some changes. -/
def after (r : Registry) (cs : List Change) : Registry := cs.foldl changed r

/-- What has been saved under a name, in order. -/
def savedUnder (name : String) (cs : List Change) : List Variable :=
  cs.filterMap (Change.saved? name)

/-- The variable that was saved last under a name, if not the one given. -/
def lastSaved (name : String) (cs : List Change) (first : Variable) : Variable :=
  (savedUnder name cs).getLastD first

/-- What has been done since something was saved under a name. -/
def sinceSaved (name : String) (cs : List Change) : List Change :=
  cs.rtakeWhile fun c => (c.saved? name).isNone

section Changes

variable {r : Registry} {name : String} {first : Variable}

/-- A change concerns one name only, and a removal spares the calculator's own. -/
@[simp, grind =] theorem find?_changed (r : Registry) (c : Change) (name : String) :
    (r.changed c).find? name = c.entry name (r.find? name) := by
  cases c with
  | save v => exact find?_save r v name
  | remove other =>
      show (r.remove other).2.find? name = if other = name then _ else _
      rw [find?_remove]
      by_cases hname : other = name
      · subst hname
        rcases hfind : r.find? other with _ | v
        · simp [isProtected, hfind]
        · cases hsystem : v.system <;> simp [isProtected, hfind, hsystem, Option.filter]
      · rw [if_neg hname, if_neg (fun h => hname h.1)]

/-- A change that concerns another name leaves an entry alone. -/
theorem find?_changed_of_ne {c : Change} (h : c.name ≠ name) :
    (r.changed c).find? name = r.find? name := by
  rw [find?_changed]
  cases c with
  | save v => exact if_neg h
  | remove other => exact if_neg h

@[simp, grind =] theorem after_concat (r : Registry) (cs : List Change) (c : Change) :
    r.after (cs ++ [c]) = (r.after cs).changed c := List.foldl_concat _ _ _ _

@[simp, grind =] theorem lastSaved_concat (cs : List Change) (c : Change) :
    lastSaved name (cs ++ [c]) first = (c.saved? name).getD (lastSaved name cs first) := by
  unfold lastSaved savedUnder
  rw [List.filterMap_append]
  rcases hsaved : c.saved? name with _ | v
  · simp [hsaved]
  · simp [hsaved]

@[simp, grind =] theorem sinceSaved_concat (cs : List Change) (c : Change) :
    sinceSaved name (cs ++ [c]) =
      if (c.saved? name).isNone then sinceSaved name cs ++ [c] else [] := by
  unfold sinceSaved
  rcases hsaved : c.saved? name with _ | v
  · rw [List.rtakeWhile_concat_pos _ _ _ (by rw [hsaved]; rfl)]
    rfl
  · rw [List.rtakeWhile_concat_neg _ _ _ (by rw [hsaved]; simp)]
    rfl

/-- After any changes the entry of a name is what was saved last under it, except that
    an ordinary variable is gone once it has been removed. -/
theorem find?_after (h : r.find? name = some first) (cs : List Change) :
    (r.after cs).find? name =
      if (lastSaved name cs first).system = false ∧ .remove name ∈ sinceSaved name cs then none
      else some (lastSaved name cs first) := by
  induction cs using List.reverseRecOn with
  | nil => simpa [after, lastSaved, savedUnder, sinceSaved] using h
  | append_singleton cs c ih =>
      rw [after_concat, find?_changed, ih, lastSaved_concat, sinceSaved_concat]
      cases c with
      | save v => by_cases hv : v.name = name <;> simp [Change.entry, Change.saved?, hv]
      | remove other =>
          by_cases hother : other = name
          · -- Only an ordinary variable goes, and it may have gone before.
            subst hother
            cases hsystem : (lastSaved other cs first).system with
            | true => simp [Change.entry, Change.saved?, hsystem, Option.filter]
            | false =>
                simp only [Change.entry, Change.saved?, hsystem, if_true, Option.isNone_none,
                  Option.getD_none, List.mem_append, List.mem_singleton, or_true, and_self]
                split <;> simp [Option.filter, hsystem]
          · have hne : Change.remove name ≠ .remove other :=
              fun h => hother (Change.remove.inj h).symm
            simp [Change.entry, Change.saved?, hother, hne]

end Changes

/-- The constant that the calculator itself defines is in a registry that began with it,
    and is one of the calculator's own, exactly if what was saved last under its name is
    one, or nothing has been saved under it. It is then that very variable. What is saved
    instead of it need not be one, and is gone with the next removal of the name. -/
theorem circleRatio_kept_iff (cs : List Change) :
    let r := standard.after cs
    let last := lastSaved Variable.piName cs .circleRatio
    ((r.contains Variable.piName = true ∧ r.isProtected Variable.piName = true) ↔
      last.system = true) ∧
    (last.system = true → r.find? Variable.piName = some last) ∧
    (last.system = false → r.find? Variable.piName =
      if .remove Variable.piName ∈ sinceSaved Variable.piName cs then none else some last) := by
  intro r last
  have hentry : r.find? Variable.piName =
      if last.system = false ∧ .remove Variable.piName ∈ sinceSaved Variable.piName cs then none
      else some last := find?_after rfl cs
  unfold contains isProtected
  rw [hentry]
  cases hsystem : last.system with
  | true => simp [hsystem]
  | false =>
      refine ⟨iff_of_false (fun h => ?_) Bool.false_ne_true,
        fun h => absurd h Bool.false_ne_true, fun _ => by simp only [true_and]⟩
      rcases h with ⟨-, hprotected⟩
      split at hprotected
      · exact absurd hprotected Bool.false_ne_true
      · rw [Option.any_some, hsystem] at hprotected
        exact absurd hprotected Bool.false_ne_true

/-- An ordinary variable of that name takes the place of the constant, and can be
    removed. -/
theorem circleRatio_kept_iff_gone :
    let cs := [Change.save (.plain "pi" "3"), .remove "pi"]
    lastSaved Variable.piName cs .circleRatio = .plain "pi" "3" ∧
      (standard.after cs).find? Variable.piName = none := by
  intro cs
  have hlast : lastSaved Variable.piName cs .circleRatio = .plain "pi" "3" := by decide +kernel
  have hgone := (circleRatio_kept_iff cs).2.2
  rw [hlast] at hgone
  refine ⟨hlast, (hgone rfl).trans (if_pos (by decide +kernel))⟩

end Registry

end ExactCalc
