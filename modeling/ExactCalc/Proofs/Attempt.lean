import ExactCalc.Proofs.Written

/-!
# Outcomes of an Attempt

What an attempt complains of, and what it leaves as symbols.

Definitions are put in by an evaluation and by nothing else. So whenever an attempt
fails of a circular definition, the name it tells of is circular; every other step
fails of something else. The places it tells of are those of the tokenizer, in the
text without the blanks around it, and the very first place where nothing is left of
that text. And the symbols in the text of a result are names without
a value, because every name with a value has been replaced, simplifying adds no
name, and the text spells only those that are left.

## Main definitions

* `Exact.Valueless`: A name without a value.
* `Exact.Leaves`: A tree whose names have a property, if there is a tree.

## Theorems

* `ends_resolve_leaves`: Resolving leaves identifiers without a value.
* `stop_of_attempt`: Which places an attempt tells of.
* `circular_of_attempt`: A circular definition that is told of is one.
* `worded_of_attempt`: The names in a result have no value.
-/

namespace ExactCalc

namespace Exact

/-- A name that is not taken, or whose value is blank. -/
def Valueless (registry : Registry) (name : String) : Prop :=
  ∀ v, registry.find? name = some v → isBlankText v.value = true

/-- A tree whose names have a property, if there is a tree. -/
def Leaves (P : String → Prop) : Except EvalError Expr → Prop
  | .ok r => r.NamedBy P
  | .error _ => True

section Leaving

variable {registry : Registry} {bound : Nat} {P : String → Prop} {e : Expr} {name : String}

theorem definition?_of_valueless (h : Valueless registry name) :
    definition? registry bound name = none := by
  unfold definition?
  rcases hfind : registry.find? name with _ | v
  · rfl
  · simp only [h v hfind, if_true]

/-- What holds of all that is put in for the names of a tree holds of the names that are
    left. -/
theorem ends_substitute_leaves {lookup : String → Work (Option Expr)}
    (h : ∀ name ∈ e.names, Ends (lookup name) fun
      | .ok found => (found.getD (.var name)).NamedBy P
      | .error _ => True) :
    Ends (e.substitute lookup) (Leaves P) := by
  induction e with
  | rat q => exact ends_pure (Expr.namedBy_rat q)
  | pi => exact ends_pure (List.forall_mem_nil P)
  | var name =>
      exact ends_bind (h name List.mem_cons_self) (fun _ hfound => ends_pure hfound)
        fun _ _ => trivial
  | sqrt x ih => exact ends_bind (ih h) (fun _ hr => ends_pure hr) fun _ _ => trivial
  | abs x ih => exact ends_bind (ih h) (fun _ hr => ends_pure hr) fun _ _ => trivial
  | pow a b iha ihb | add a b iha ihb | sub a b iha ihb | mul a b iha ihb | div a b iha ihb =>
      rcases List.forall_mem_append.mp h with ⟨hleft, hright⟩
      exact ends_bind (iha hleft) (fun _ hr => ends_bind (ihb hright)
        (fun _ hs => ends_pure ((Expr.namedBy_pair rfl).mpr ⟨hr, hs⟩)) fun _ _ => trivial)
        fun _ _ => trivial

/-- Resolving leaves identifiers without a value. -/
theorem ends_resolve_leaves (free : List String) (he : e.NamedBy Expr.IsIdentifier) :
    Ends (resolve registry bound free e)
      (Leaves fun name => Expr.IsIdentifier name ∧ Valueless registry name) := by
  induction free using free_induction generalizing e with
  | step free ih =>
      rw [resolve]
      refine ends_substitute_leaves (fun name hname => ?_)
      have hleft : Valueless registry name → (Expr.var name).NamedBy fun name =>
          Expr.IsIdentifier name ∧ Valueless registry name :=
        fun hvalue => List.forall_mem_singleton.mpr ⟨he name hname, hvalue⟩
      rcases hfind : registry.find? name with _ | v
      · refine ends_pure (hleft fun v hv => ?_)
        rw [hfind] at hv
        cases hv
      cases hvalue : isBlankText v.value with
      | true =>
          simp only [hvalue, if_true]
          refine ends_bind (P := fun _ => True) (fun _ => trivial)
            (fun _ _ => ends_pure (hleft fun w hw => ?_)) fun _ _ => trivial
          rw [hfind, Option.some.injEq] at hw
          exact hw ▸ hvalue
      | false =>
          simp only [hvalue, Bool.false_eq_true, if_false]
          by_cases hfree : name ∈ free
          · -- The parser makes identifiers only of the names that stand in the value.
            have hread : Ends (tryCatch (read bound v.value.toList) fun err =>
                throw (blame name err)) (Leaves Expr.IsIdentifier) := by
              refine ends_rethrow _ (ends_read bound _) (fun tree htree => ?_) fun _ _ => trivial
              have hparse :
                  Yields _ (Expr.NamedBy Expr.IsIdentifier) (parse bound v.value.toList) :=
                yields_parse fun _ hname _ => hname
              rw [← htree] at hparse
              exact hparse
            rw [dif_pos hfree]
            exact ends_bind hread (fun tree htree => ends_bind (ih name hfree htree)
              (fun _ hr => ends_pure hr) fun _ _ => trivial) fun _ _ => trivial
          · rw [dif_neg hfree]
            exact ends_throw trivial

@[simp] theorem isCircular_blame (name : String) (e : EvalError) :
    (blame name e).isCircular = e.isCircular := by
  cases e <;> rfl

/-- The fault of a definition is told of without a place. -/
theorem plain_blame {err : EvalError} (name : String) (h : err.isCircular = false) :
    (blame name err).Plain := by
  have hplace : (blame name err).position? = none := by
    cases err <;> rfl
  rw [EvalError.Plain, isCircular_blame, h, hplace]
  rfl

/-- Resolving stops at a name that is circular, or at the fault of a definition, and in
    neither case tells of a place. -/
theorem stop_of_resolution {t : Trail} {err : EvalError}
    (h : resolution registry bound e t = .error err) :
    (∃ x, err = .arithmetic (.circularDefinition x) ∧ Circular registry bound x) ∨ err.Plain := by
  have hfaulty : ∀ v ∈ registry.entries, isBlankText v.value = false → ∀ err,
      parse bound v.value.toList = .error err → (blame v.name err).Plain :=
    fun v _ _ err herr => plain_blame v.name (isCircular_of_parse herr)
  -- At first no name with a value is being followed.
  have hends := ends_resolve_or EvalError.Plain hfaulty registry.names e
    (fun x tree hdef hout => absurd (mem_names_of_definition? hdef) hout)
    (fun x v hfind _ hout => absurd (mem_names_of_find? hfind) hout) t
  rw [resolution] at h
  rw [h] at hends
  rcases hends with ⟨x, herr, -, hcircular⟩ | hplain
  · exact .inl ⟨x, herr, hcircular⟩
  · exact .inr hplain

end Leaving

section Attempts

variable {settings : Settings} {registry : Registry} {expression : String} {op : Operation}
  {cancelled : Bool} {kept : List Message}

/-- An evaluation that goes well leaves identifiers without a value. -/
theorem named_of_evaluation {d : Deferred}
    (h : evaluation settings registry expression op cancelled = .ok d) :
    d.tree.NamedBy fun name => Expr.IsIdentifier name ∧ Valueless registry name := by
  rcases evaluation_ok h with ⟨-, -, tree, hparse, hresolved⟩
  have hnames : Yields _ (Expr.NamedBy Expr.IsIdentifier)
      (parse settings.depthBound (Text.trim expression.toList)) :=
    yields_parse fun _ hname _ => hname
  rw [hparse] at hnames
  have hleaves : Leaves _ (resolution registry settings.depthBound tree .empty) :=
    ends_resolve_leaves registry.names hnames .empty
  rw [hresolved] at hleaves
  exact hleaves

/-- An evaluation stops at a circular definition, finds nothing to evaluate, or tells
    of a place in the text if it tells of any. -/
theorem stop_of_evaluation {err : EvalError}
    (h : evaluation settings registry expression op cancelled = .error err) :
    (∃ x, err = .arithmetic (.circularDefinition x) ∧ Circular registry settings.depthBound x) ∨
      (err = .unreadable .emptyText (some 0) ∧ Text.trim expression.toList = []) ∨
        err.Before (Token.limit 0 (Text.trim expression.toList)) := by
  have hplain : err.Plain → err.Before (Token.limit 0 (Text.trim expression.toList)) :=
    fun hplain => hplain.before _
  unfold evaluation at h
  split at h
  · exact .inr (.inr (hplain (Except.error.inj h ▸ rfl)))
  split at h
  · rename_i hempty
    exact .inr (.inl ⟨(Except.error.inj h).symm, List.isEmpty_iff.mp hempty⟩)
  rcases bind_eq_error.mp h with hparse | ⟨tree, -, h⟩
  · exact .inr (.inr (before_of_parse hparse))
  rcases bind_eq_error.mp h with hresolution | ⟨r, -, h⟩
  · rcases stop_of_resolution hresolution with hcircular | hstop
    · exact .inl hcircular
    · exact .inr (.inr (hplain hstop))
  · split at h
    · exact .inr (.inr (hplain (Except.error.inj h ▸ rfl)))
    · cases h

/-- An attempt fails as its evaluation does, or of something without a place. -/
theorem stop_of_attempt {err : EvalError}
    (h : ((engine settings registry).attempt expression op cancelled kept).reply =
      .failure err) :
    (∃ x, err = .arithmetic (.circularDefinition x) ∧ Circular registry settings.depthBound x) ∨
      (err = .unreadable .emptyText (some 0) ∧ Text.trim expression.toList = []) ∨
        err.Before (Token.limit 0 (Text.trim expression.toList)) := by
  rw [reply_attempt_bind] at h
  rcases bind_eq_error.mp (error_of_reply h) with heval | ⟨d, heval, hresult⟩
  · exact stop_of_evaluation (error_of_mapError heval)
  · have hrender := (ends_render cancelled (named_of_evaluation (ok_of_mapError heval))).result
    rw [hresult] at hrender
    have hplain : err.Plain := hrender
    exact .inr (.inr (hplain.before _))

/-- A circular definition that an attempt fails of is one: nothing but putting the
    definitions in tells of it. -/
theorem circular_of_attempt {name : String}
    (h : ((engine settings registry).attempt expression op cancelled kept).reply =
      .failure (.arithmetic (.circularDefinition name))) :
    Circular registry settings.depthBound name := by
  rcases stop_of_attempt h with ⟨x, herr, hcircular⟩ | ⟨herr, -⟩ | hbefore
  · rw [EvalError.arithmetic.injEq, ArithmeticFault.circularDefinition.injEq] at herr
    exact herr ▸ hcircular
  · cases herr
  · exact absurd hbefore.sound Bool.true_eq_false.mp

/-- The names in a result have no value, and the result is a text without blanks. -/
theorem worded_of_attempt {text : String}
    (h : ((engine settings registry).attempt expression op cancelled kept).reply =
      .value text) : Worded (Valueless registry) text.toList := by
  rw [reply_attempt_bind] at h
  rcases bind_eq_ok.mp (ok_of_reply h) with ⟨d, heval, hresult⟩
  have hrender := (ends_render cancelled (named_of_evaluation (ok_of_mapError heval))).result
  rw [hresult] at hrender
  exact hrender

end Attempts

end Exact

end ExactCalc
