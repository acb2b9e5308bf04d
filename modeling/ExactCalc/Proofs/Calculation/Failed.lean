import ExactCalc.Proofs.Calculation.Course
import Mathlib.Data.List.Induction

/-!
# Failures of a Calculation

Which step of a calculation a published failure comes from.

A calculation fails in one of three ways: its text cannot be prepared, the engine
ends an attempt with an error, or the engine breaks down. The first is the matter
of a preparing step, the others are matters of an evaluating one, and each step
tells of a failure as the event it ends with. So a failure that a course has
published is traced to the phase and the moment of one step. `Fails` lists what
the failure then says, and an induction over the moments finds the step.

## Main definitions

* `Calculation.Takes`: A step that a course takes.
* `Calculation.Fails`: What a step in a phase fails of.
* `Calculation.Refused`, `Calculation.Blamed`, `Calculation.Broken`: Failures of the
  text, of the expression and of the engine.

## Theorems

* `fails_of_step`: What a step tells of when it fails.
* `fails_of_course`: A published failure comes from a step.
-/

namespace ExactCalc

namespace Calculation

variable {σ : Type}

/-- A course takes a step in a phase, at a moment. -/
def Takes (r : Request) (moments : List (Moment σ)) (phase : Phase) (m : Moment σ) : Prop :=
  ∃ past rest, moments = past ++ m :: rest ∧ (course r (start r) past).phase = phase

/-- What a step fails of that is taken in a phase, at a moment. -/
inductive Fails (r : Request) (m : Moment σ) : Phase → Failure → Prop where
  | refused {op : Operation} {e : PreparationError}
      (h : Prepared.ofText m.registry m.session r.text = .error e) :
      Fails r m (.preparing op) (.ofPreparation op r.text e)
  | blamed {op : Operation} {p : Prepared} {e : EvalError}
      (h : (m.engine.attempt p.expression op m.cancelled m.state).reply = .failure e) :
      Fails r m (.evaluating op p) (.ofEngine op p.expression e)
  | brokeDown {op : Operation} {p : Prepared}
      (h : (m.engine.attempt p.expression op m.cancelled m.state).reply = .breakdown ∨
        (m.engine.drain (m.engine.attempt p.expression op m.cancelled m.state).state).reply =
          .breakdown) :
      Fails r m (.evaluating op p) (.ofEngine r.operation r.text breakdownError)

/-- The failure of a text that could not be prepared when a course got to it. -/
def Refused (r : Request) (moments : List (Moment σ)) (f : Failure) : Prop :=
  ∃ op m e, Takes r moments (.preparing op) m ∧
    Prepared.ofText m.registry m.session r.text = .error e ∧ f = .ofPreparation op r.text e

/-- The failure of an expression, made of the error of an attempt in a course. -/
def Blamed (r : Request) (moments : List (Moment σ)) (f : Failure) : Prop :=
  ∃ op p m e, Takes r moments (.evaluating op p) m ∧
    (m.engine.attempt p.expression op m.cancelled m.state).reply = .failure e ∧
      f = .ofEngine op p.expression e

/-- The failure of a request whose engine broke down in a course. -/
def Broken (r : Request) (moments : List (Moment σ)) (f : Failure) : Prop :=
  ∃ op p m, Takes r moments (.evaluating op p) m ∧
    ((m.engine.attempt p.expression op m.cancelled m.state).reply = .breakdown ∨
      (m.engine.drain (m.engine.attempt p.expression op m.cancelled m.state).state).reply =
        .breakdown) ∧
    f = .ofEngine r.operation r.text breakdownError

section Steps

variable {r : Request} {m : Moment σ} {moments : List (Moment σ)} {phase : Phase} {f : Failure}

theorem Takes.mem (h : Takes r moments phase m) : m ∈ moments := by
  rcases h with ⟨past, rest, hmoments, -⟩
  rw [hmoments]
  exact List.mem_append_right past List.mem_cons_self

theorem Takes.append (h : Takes r moments phase m) (later : List (Moment σ)) :
    Takes r (moments ++ later) phase m := by
  rcases h with ⟨past, rest, hmoments, hphase⟩
  refine ⟨past, rest ++ later, ?_, hphase⟩
  rw [hmoments, List.append_assoc, List.cons_append]

/-- Concluding an attempt fails only if the engine breaks down. -/
theorem failed_conclude {E : Engine σ} {op : Operation} {p : Prepared} {text : String} {s : σ}
    (h : .calculationFailed f ∈ published (conclude E r op p text s).2) :
    (E.drain s).reply = .breakdown ∧ f = .ofEngine r.operation r.text breakdownError := by
  rw [published_conclude] at h
  generalize (E.drain s).reply = reply at h
  rcases reply with (_ | ⟨m, ms⟩) | e | _
  · cases List.mem_singleton.mp h
  · rcases List.mem_cons.mp h with hmessages | h
    · cases hmessages
    · cases List.mem_singleton.mp h
  · cases List.mem_singleton.mp h
  · exact ⟨rfl, Event.calculationFailed.inj (List.mem_singleton.mp h)⟩

/-- The error of an attempt is told of as it is, if it is told of at all. -/
theorem failed_afterError {op : Operation} {p : Prepared} {e : EvalError}
    (h : .calculationFailed f ∈ published (afterError r op p e).2) :
    f = .ofEngine op p.expression e := by
  unfold afterError at h
  split at h
  · cases List.mem_singleton.mp h
  · split at h
    · exact absurd h List.not_mem_nil
    · exact Event.calculationFailed.inj (List.mem_singleton.mp h)

/-- A failure that a step publishes is one of those that are listed for its phase. -/
theorem fails_of_step
    (h : .calculationFailed f ∈ published
      (step m.engine m.registry m.session m.cancelled r phase m.state).effects) :
    Fails r m phase f := by
  cases phase with
  | preparing op =>
      simp only [step, prepare] at h
      rcases hprepared : Prepared.ofText m.registry m.session r.text with e | p <;>
        rw [hprepared] at h
      · rw [Event.calculationFailed.inj (List.mem_singleton.mp h)]
        exact .refused hprepared
      · exact absurd h List.not_mem_nil
  | evaluating op p =>
      simp only [step, evaluate] at h
      rcases hattempt : m.engine.attempt p.expression op m.cancelled m.state with
        ⟨text | e | _, t, log⟩ <;> rw [hattempt] at h <;> simp only [published_notes] at h
      · rcases failed_conclude h with ⟨hdrain, hf⟩
        rw [hf]
        exact .brokeDown (.inr (by rw [hattempt]; exact hdrain))
      · rw [failed_afterError h]
        exact .blamed (by rw [hattempt])
      · rw [Event.calculationFailed.inj (List.mem_singleton.mp h)]
        exact .brokeDown (.inl (by rw [hattempt]))
  | finished => exact absurd h List.not_mem_nil

/-- A failure that a course has published comes from a step that the course has taken. -/
theorem fails_of_course (h : .calculationFailed f ∈ (course r (start r) moments).events) :
    ∃ phase m, Takes r moments phase m ∧ Fails r m phase f := by
  induction moments using List.reverseRecOn with
  | nil => exact absurd h List.not_mem_nil
  | append_singleton moments m ih =>
      rw [course, List.foldl_append] at h
      rcases List.mem_append.mp h with hbefore | hnow
      · rcases ih hbefore with ⟨phase, m', htakes, hfails⟩
        exact ⟨phase, m', htakes.append [m], hfails⟩
      · -- The effects are those of the plain engine, whatever calls have been recorded.
        rw [(step_recorded m.engine m.registry m.session m.cancelled r _ m.state _).2.1] at hnow
        exact ⟨_, m, ⟨moments, [], rfl, rfl⟩, fails_of_step hnow⟩

end Steps

end Calculation

end ExactCalc
