import ExactCalc.Engine.Exact

/-!
# Work and its Trail

What work does to the trail it leaves.

Work that is put together from pieces that only add to the trail only adds to it
as well, and what it adds is settled before it starts. `Adds` says so, and one
lemma for each way in which work is put together carries it over to everything
the engine does. An evaluation is the one exception: it begins by letting go of
the messages that are kept, and only adds to its trail after that.

## Main definitions

* `Exact.adjoin`, `Exact.Trail.add`: Messages and records added to a trail.
* `Exact.Adds`: Work that adds to its trail and never looks at it.

## Theorems

* `adds_bind`, `adds_tryCatch`, `adds_guard`, `adds_toRendering`: Work put together.
* `free_induction`: The recursion of resolving.
* `adds_resolve`, `adds_render`, `evaluate_adds`: What the engine adds.
-/

namespace ExactCalc

namespace Exact

section Adding

variable {ε α β : Type}

/-- Adds a message to those that are kept, unless it is one of them. -/
def adjoin (kept : List Message) (m : Message) : List Message :=
  if kept.contains m then kept else kept ++ [m]

/-- A trail with messages and records added to it. -/
def Trail.add (t : Trail) (ms : List Message) (rs : List Journal.Record) : Trail :=
  ⟨ms.foldl adjoin t.messages, t.log ++ rs⟩

/-- Work that adds to its trail and never looks at it: how it ends and what it adds
    does not depend on the trail it starts with. -/
def Adds (w : WorkUntil ε α) : Prop :=
  ∃ r ms rs, ∀ t, w.run.run t = (r, t.add ms rs)

@[simp] theorem Trail.add_nil (t : Trail) : t.add [] [] = t := by
  rw [Trail.add, List.append_nil, List.foldl_nil]

@[simp] theorem Trail.add_add (t : Trail) (ms ms' : List Message) (rs rs' : List Journal.Record) :
    (t.add ms rs).add ms' rs' = t.add (ms ++ ms') (rs ++ rs') := by
  simp only [Trail.add, List.foldl_append, List.append_assoc]

theorem adds_lift (r : Except ε α) : Adds (lift r) :=
  ⟨r, [], [], fun t => congrArg (Prod.mk r) t.add_nil.symm⟩

theorem adds_pure (a : α) : Adds (pure a : WorkUntil ε α) := adds_lift (.ok a)

theorem adds_throw (e : ε) : Adds (throw e : WorkUntil ε α) := adds_lift (.error e)

theorem adds_keep (m : Message) : Adds (keep m : WorkUntil ε Unit) := by
  refine ⟨.ok (), [m], [], fun t => ?_⟩
  have hkeep : t.keep m = t.add [m] [] := by
    simp only [Trail.keep, Trail.add, List.foldl_cons, List.foldl_nil, adjoin, List.append_nil]
    split <;> rfl
  exact congrArg (Prod.mk _) hkeep

theorem adds_note (r : Journal.Record) : Adds (note r : WorkUntil ε Unit) :=
  ⟨.ok (), [], [r], fun _ => rfl⟩

theorem adds_bind {w : WorkUntil ε α} {f : α → WorkUntil ε β} (hw : Adds w) (hf : ∀ a, Adds (f a)) :
    Adds (w >>= f) := by
  rcases hw with ⟨e | a, ms, rs, hw⟩
  · refine ⟨.error e, ms, rs, fun t => ?_⟩
    rw [ExceptT.run_bind, StateT.run_bind, hw]
    rfl
  · rcases hf a with ⟨r, ms', rs', hf⟩
    refine ⟨r, ms ++ ms', rs ++ rs', fun t => ?_⟩
    rw [ExceptT.run_bind, StateT.run_bind, hw, ← Trail.add_add]
    exact hf _

theorem adds_tryCatch {w : Work α} {handler : EvalError → Work α} (hw : Adds w)
    (hhandler : ∀ e, Adds (handler e)) : Adds (tryCatch w handler) := by
  rcases hw with ⟨e | a, ms, rs, hw⟩
  · rcases hhandler e with ⟨r, ms', rs', hh⟩
    refine ⟨r, ms ++ ms', rs ++ rs', fun t => ?_⟩
    rw [ExceptT.run_tryCatch, StateT.run_bind, hw, ← Trail.add_add]
    exact hh _
  · refine ⟨.ok a, ms, rs, fun t => ?_⟩
    rw [ExceptT.run_tryCatch, StateT.run_bind, hw]
    rfl

theorem run_toRendering {w : Work α} {t t' : Trail} {r : Except EvalError α}
    (h : w.run.run t = (r, t')) : (toRendering w).run.run t = (r.mapError Stop.failure, t') :=
  congrArg (fun x : Except EvalError α × Trail => (x.1.mapError Stop.failure, x.2)) h

/-- Work that may fail adds the same where it may also break down. -/
theorem adds_toRendering {w : Work α} (hw : Adds w) : Adds (toRendering w) := by
  rcases hw with ⟨r, ms, rs, hw⟩
  exact ⟨r.mapError Stop.failure, ms, rs, fun t => run_toRendering (hw t)⟩

/-- Stopping under a condition, and going on otherwise. -/
theorem adds_guard {c : Prop} [Decidable c] (e : ε) {f : Unit → WorkUntil ε β}
    (hf : Adds (f ())) : Adds (if c then throw e >>= f else f ()) := by
  by_cases hc : c
  · rw [if_pos hc]
    exact adds_throw e
  · rw [if_neg hc]
    exact hf

theorem adds_substitute {lookup : String → Work (Option Expr)} (h : ∀ name, Adds (lookup name))
    (e : Expr) : Adds (e.substitute lookup) := by
  induction e with
  | rat q => exact adds_pure _
  | pi => exact adds_pure _
  | var name => exact adds_bind (h name) (fun found => adds_pure (found.getD (.var name)))
  | sqrt x ih => exact adds_bind ih (fun r => adds_pure (Expr.sqrt r))
  | abs x ih => exact adds_bind ih (fun r => adds_pure (Expr.abs r))
  | pow a b iha ihb | add a b iha ihb | sub a b iha ihb | mul a b iha ihb | div a b iha ihb =>
      exact adds_bind iha (fun _ => adds_bind ihb (fun _ => adds_pure _))

theorem adds_read (bound : Nat) (text : List Char) : Adds (read bound text) :=
  adds_bind (adds_lift _) fun _ => adds_bind (adds_lift _) fun _ =>
    adds_bind (adds_note _) fun _ => adds_lift _

/-- Induction on the names that are still free, as resolving follows them: following a
    name takes it away. -/
theorem free_induction {motive : List String → Prop}
    (step : ∀ free, (∀ name ∈ free, motive (free.erase name)) → motive free)
    (free : List String) : motive free := by
  generalize hlen : free.length = len
  induction len using Nat.strongRecOn generalizing free with
  | ind len ih =>
      refine step free (fun name hfree => ih _ ?_ (free.erase name) rfl)
      rw [List.length_erase_of_mem hfree, ← hlen]
      have hpos := List.length_pos_of_mem hfree
      omega

theorem adds_resolve (registry : Registry) (bound : Nat) (free : List String) (e : Expr) :
    Adds (resolve registry bound free e) := by
  induction free using free_induction generalizing e with
  | step free ih =>
      rw [resolve]
      refine adds_substitute (fun name => ?_) e
      rcases registry.find? name with _ | v
      · exact adds_pure none
      by_cases hblank : isBlankText v.value = true
      · simp only [hblank, if_true]
        exact adds_bind (adds_keep _) (fun _ => adds_pure none)
      simp only [hblank]
      by_cases hfree : name ∈ free
      · rw [dif_pos hfree]
        refine adds_bind (adds_tryCatch (adds_read _ _) (fun e => adds_throw (blame name e)))
          (fun tree => adds_bind (ih name hfree tree) (fun r => adds_pure (some r)))
      · rw [dif_neg hfree]
        exact adds_throw _

theorem adds_numericText (places : Nat) (cancelled : Bool) (e : Expr) :
    Adds (numericText places cancelled e) := by
  unfold numericText
  rcases e.firstVariable? with _ | name
  · rcases e.number? with _ | q
    · exact adds_bind (adds_lift _) fun _ => adds_bind (adds_keep _) fun _ => adds_pure _
    · simp only
      rcases Decimal.ofRat q places with ⟨text, exact⟩
      cases exact with
      | true => exact adds_pure _
      | false => exact adds_bind (adds_keep _) fun _ => adds_pure _
  · exact adds_throw _

theorem adds_render (d : Deferred) (cancelled : Bool) : Adds (render d cancelled) := by
  have hcheck : Adds (toRendering (check cancelled)) := adds_toRendering (adds_lift _)
  refine adds_bind hcheck fun _ => adds_bind (adds_lift _) fun divided => adds_guard _ ?_
  refine adds_bind (adds_lift _) fun e => adds_bind hcheck fun _ => ?_
  rcases d.operation with _ | _
  · exact adds_numericText _ _ _
  · exact adds_pure _

/-- An evaluation lets go of the messages that are kept, and only adds to its trail
    after that. -/
theorem evaluate_adds (settings : Settings) (registry : Registry) (expression : String)
    (op : Operation) (cancelled : Bool) :
    ∃ r ms rs, ∀ t, (evaluate settings registry expression op cancelled).run.run t =
      (r, Trail.add ⟨[], t.log⟩ ms rs) := by
  have hclear : ∀ f : Unit → Work Deferred, Adds (f ()) → ∃ r ms rs, ∀ t : Trail,
      (ExceptT.lift (modify fun t : Trail => { t with messages := [] }) >>= f).run.run t =
        (r, Trail.add ⟨[], t.log⟩ ms rs) := by
    rintro f ⟨r, ms, rs, hf⟩
    exact ⟨r, ms, rs, fun t => hf ⟨[], t.log⟩⟩
  refine hclear _ (adds_bind (adds_lift _) fun _ => adds_guard _ ?_)
  refine adds_bind (adds_read _ _) fun tree => adds_bind (adds_resolve _ _ _ tree) fun tree => ?_
  exact adds_guard _ (adds_bind (adds_lift _) fun _ =>
    adds_bind (adds_note _) fun _ => adds_pure _)

end Adding

end Exact

end ExactCalc
