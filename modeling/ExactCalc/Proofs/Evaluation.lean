import ExactCalc.Proofs.Definitions
import ExactCalc.Proofs.Trail

/-!
# Attempts of the Exact Engine

How an attempt at an expression ends, apart from the trail it leaves.

Evaluating an expression is parsing it, putting the definitions in and comparing
the depth with the bound. None of that looks at what has been left behind, so an
evaluation is a function of the expression and the registry, and an attempt adds
the rendering of the tree that comes out. `evaluation` is that function, written
without the trail; the claims about what an attempt answers go through it.

## Main definitions

* `Exact.result`: How work ends that starts with nothing left behind.
* `Exact.evaluation`: How an evaluation ends.
* `Exact.replyOf`: The reply that tells how work has ended.

## Theorems

* `Adds.ends`: Work that only adds to its trail ends in one way.
* `ends_evaluate`: An evaluation ends as `evaluation` says.
* `reply_attempt`: The reply of an attempt.
* `evaluation_ok`: What an evaluation that goes well has gone through.
-/

namespace ExactCalc

namespace Exact

section Results

variable {ε α β : Type}

/-- How work ends that starts with nothing left behind. -/
def result (w : WorkUntil ε α) : Except ε α := (w.run.run .empty).1

/-- Work that only adds to its trail ends the same way whatever that was. -/
theorem Adds.ends {w : WorkUntil ε α} (h : Adds w) : Ends w (· = result w) := by
  rcases h with ⟨r, ms, rs, hw⟩
  intro t
  rw [result, hw, hw]

theorem Ends.result {w : WorkUntil ε α} {P : Except ε α → Prop} (h : Ends w P) :
    P (Exact.result w) := h .empty

/-- Two steps, each of which ends in a way that is known. -/
theorem ends_then {w : WorkUntil ε α} {f : α → WorkUntil ε β} {r : Except ε α}
    {s : α → Except ε β} (hw : Ends w (· = r)) (hf : ∀ a, Ends (f a) (· = s a)) :
    Ends (w >>= f) (· = (r >>= s)) := by
  refine ends_bind hw (fun a ha => ?_) (fun e he => ?_)
  · rw [← ha]
    exact hf a
  · rw [← he]
    rfl

/-- Stopping under a condition, and going on otherwise. -/
theorem ends_stop {c : Prop} {_ : Decidable c} (e : ε) {f : Unit → WorkUntil ε β}
    {P : Except ε β → Prop} (he : c → P (.error e)) (hf : ¬c → Ends (f ()) P) :
    Ends (if c then throw e >>= f else f ()) P := by
  by_cases hc : c
  · rw [if_pos hc]
    exact ends_throw (he hc)
  · rw [if_neg hc]
    exact hf hc

theorem ends_guard {c : Prop} {_ : Decidable c} (e : ε) {f : Unit → WorkUntil ε β}
    {r : Except ε β} (hf : Ends (f ()) (· = r)) :
    Ends (if c then throw e >>= f else f ()) (· = if c then .error e else r) := by
  refine ends_stop e (fun hc => (if_pos hc).symm) fun hc => ?_
  rw [if_neg hc]
  exact hf

/-- A calculation that has not been called off goes on. -/
theorem ends_goOn (f : Unit → Work β) {r : Except EvalError β} (hf : Ends (f ()) (· = r)) :
    Ends (check false >>= f) (· = r) := hf

/-- The reply that tells how work has ended. -/
def replyOf : Except Stop α → Engine.Reply α
  | .ok a => .value a
  | .error (.failure e) => .failure e
  | .error (.breakdown _) => .breakdown

theorem reply_run {w : Rendering α} {r : Except Stop α} (h : Ends w (· = r))
    (kept : List Message) : (run w kept).reply = replyOf r := by
  have hend := h ⟨kept, []⟩
  unfold run
  rcases hrun : w.run.run ⟨kept, []⟩ with ⟨(e | o) | a, t⟩ <;> rw [hrun] at hend <;>
    exact congrArg replyOf hend

theorem ok_of_reply {r : Except Stop α} {a : α} (h : replyOf r = .value a) : r = .ok a := by
  rcases r with (e | o) | b
  · cases h
  · cases h
  · rw [Engine.Reply.value.inj h]

theorem error_of_reply {r : Except Stop α} {e : EvalError} (h : replyOf r = .failure e) :
    r = .error (.failure e) := by
  rcases r with (e' | o) | b
  · rw [Engine.Reply.failure.inj h]
  · cases h
  · cases h

theorem ok_of_mapError {r : Except EvalError α} {a : α} (h : r.mapError Stop.failure = .ok a) :
    r = .ok a := by
  rcases r with e | b
  · cases h
  · exact congrArg Except.ok (Except.ok.inj h)

theorem error_of_mapError {r : Except EvalError α} {e : EvalError}
    (h : r.mapError Stop.failure = .error (.failure e)) : r = .error e := by
  rcases r with e' | b
  · exact congrArg Except.error (Stop.failure.inj (Except.error.inj h))
  · cases h

theorem result_of_reply {w : Rendering α} (h : Adds w) {kept : List Message} {a : α}
    (hreply : (run w kept).reply = .value a) : result w = .ok a := by
  rw [reply_run h.ends kept] at hreply
  exact ok_of_reply hreply

end Results

section Evaluations

variable (settings : Settings) (registry : Registry)

/-- How an evaluation of an expression ends. -/
def evaluation (expression : String) (op : Operation) (cancelled : Bool) :
    Except EvalError Deferred :=
  if cancelled then .error .interrupted
  else if (Text.trim expression.toList).isEmpty then .error (.unreadable .emptyText (some 0))
  else
    parse settings.depthBound (Text.trim expression.toList) >>= fun tree =>
      resolution registry settings.depthBound tree .empty >>= fun tree =>
        if tree.depth > settings.depthBound then .error .tooComplex
        else .ok ⟨tree, op, settings.places⟩

theorem ends_evaluate (expression : String) (op : Operation) (cancelled : Bool) :
    Ends (evaluate settings registry expression op cancelled)
      (· = evaluation settings registry expression op cancelled) := by
  cases cancelled with
  | true => exact fun _ => rfl
  | false =>
      have hclear : ∀ f : Unit → Work Deferred, Ends (f ())
          (· = evaluation settings registry expression op false) →
          Ends (ExceptT.lift (modify fun t : Trail => { t with messages := [] }) >>= f)
            (· = evaluation settings registry expression op false) :=
        fun f hf t => hf ⟨[], t.log⟩
      refine hclear _ ?_
      rw [evaluation, if_neg Bool.false_ne_true]
      refine ends_goOn _ (ends_guard _ ?_)
      refine ends_then (ends_read _ _) fun tree => ?_
      refine ends_then (adds_resolve registry settings.depthBound registry.names tree).ends ?_
      exact fun resolved => ends_guard _ (ends_goOn _ fun _ => rfl)

/-- An attempt renders what its evaluation ends in, and fails as that does. -/
theorem reply_attempt (expression : String) (op : Operation) (cancelled : Bool)
    (kept : List Message) :
    ((engine settings registry).attempt expression op cancelled kept).reply =
      match evaluation settings registry expression op cancelled with
      | .ok d => replyOf (result (render d cancelled))
      | .error e => .failure e := by
  have hends : Ends (toRendering (evaluate settings registry expression op cancelled))
      (· = (evaluation settings registry expression op cancelled).mapError Stop.failure) :=
    ends_toRendering fun t =>
      congrArg (·.mapError Stop.failure) (ends_evaluate settings registry expression op cancelled t)
  have hfirst : ((engine settings registry).evaluate expression op cancelled kept).reply =
      replyOf ((evaluation settings registry expression op cancelled).mapError Stop.failure) :=
    reply_run hends kept
  unfold Engine.attempt
  rcases heval : evaluation settings registry expression op cancelled with e | d
  · rw [heval] at hfirst
    simp only [hfirst, Except.mapError, replyOf]
  · rw [heval] at hfirst
    simp only [hfirst, Except.mapError, replyOf]
    exact reply_run (adds_render d cancelled).ends _

/-- The same, as an evaluation and a rendering one after the other. -/
theorem reply_attempt_bind (expression : String) (op : Operation) (cancelled : Bool)
    (kept : List Message) :
    ((engine settings registry).attempt expression op cancelled kept).reply =
      replyOf ((evaluation settings registry expression op cancelled).mapError Stop.failure >>=
        fun d => result (render d cancelled)) := by
  rw [reply_attempt]
  rcases evaluation settings registry expression op cancelled with e | d <;> rfl

variable {settings registry}

/-- An evaluation that goes well has not been called off, and has parsed the
    expression and put the definitions in. -/
theorem evaluation_ok {expression : String} {op : Operation} {cancelled : Bool} {d : Deferred}
    (h : evaluation settings registry expression op cancelled = .ok d) :
    cancelled = false ∧ d.operation = op ∧ ∃ tree,
      parse settings.depthBound (Text.trim expression.toList) = .ok tree ∧
      resolution registry settings.depthBound tree .empty = .ok d.tree := by
  unfold evaluation at h
  cases cancelled with
  | true => cases h
  | false =>
      rw [if_neg Bool.false_ne_true] at h
      by_cases hempty : (Text.trim expression.toList).isEmpty = true
      · rw [if_pos hempty] at h
        cases h
      rw [if_neg hempty] at h
      rcases bind_eq_ok.mp h with ⟨tree, hparse, h⟩
      rcases bind_eq_ok.mp h with ⟨resolved, hresolved, h⟩
      by_cases hdeep : resolved.depth > settings.depthBound
      · rw [if_pos hdeep] at h
        cases h
      · rw [if_neg hdeep, Except.ok.injEq] at h
        rw [← h]
        exact ⟨rfl, rfl, tree, hparse, hresolved⟩

end Evaluations

end Exact

end ExactCalc
