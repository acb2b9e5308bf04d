import ExactCalc.Calculation

/-!
# Recorded Engines

Which calls a calculation makes to its engine.

An engine is a record of functions, so nothing about a calculation tells how
often it calls one of them. A recorded engine tells. It answers every call as
the engine does that it is made from, and keeps a list of the calls beside the
state of that engine. A calculation is the same for every engine, so what it
does with a recorded one is what it does with the other, and the list shows how
it was done.

An attempt, an evaluation and a rendering in one go, evaluates once, and renders
once if there is something to render. `Attempted` holds of the calls of one
attempt and of the way it ended.

## Main definitions

* `Engine.Entry`: A call and how it ended.
* `Engine.recorded`: An engine that keeps a list of the calls made to it.
* `Engine.Attempted`: The calls of one attempt.

## Theorems

* `attempt_recorded`: An attempt with a recorded engine.
* `conclude_recorded`: The end of a calculation with a recorded engine.
* `step_recorded`: A step is the same with a recorded engine.
-/

namespace ExactCalc

namespace Engine

variable {σ : Type}

/-- How a call ended, whatever its value. -/
def Reply.outline {α : Type} : Reply α → Reply Unit
  | .value _ => .value ()
  | .failure e => .failure e
  | .breakdown => .breakdown

/-- A call made to an engine, and how it ended. -/
inductive Entry where
  | evaluated (expression : String) (op : Operation) (reply : Reply Unit)
  | rendered (reply : Reply Unit)
  | drained (reply : Reply Unit)

/-- The outcome of a call that is put on a list. -/
def Call.listed {α : Type} (c : Call σ α) (calls : List Entry) (entry : Reply Unit → Entry) :
    Call (σ × List Entry) α :=
  ⟨c.reply, (c.state, calls ++ [entry c.reply.outline]), c.log⟩

/-- An engine that keeps a list of the calls made to it, the last one last. -/
def recorded (E : Engine σ) : Engine (σ × List Entry) where
  Result := E.Result
  waits s expression := E.waits s.1 expression
  evaluate expression op cancelled s :=
    (E.evaluate expression op cancelled s.1).listed s.2 (.evaluated expression op)
  render r cancelled s := (E.render r cancelled s.1).listed s.2 .rendered
  drain s := (E.drain s.1).listed s.2 .drained

/-- The calls that one attempt at an expression makes, and how the attempt ends. -/
inductive Attempted (expression : String) (op : Operation) : List Entry → Reply Unit → Prop where
  | failed (e : EvalError) :
      Attempted expression op [.evaluated expression op (.failure e)] (.failure e)
  | brokeDown : Attempted expression op [.evaluated expression op .breakdown] .breakdown
  | rendered (reply : Reply Unit) :
      Attempted expression op [.evaluated expression op (.value ()), .rendered reply] reply

/-- An attempt with a recorded engine ends as it does without the record, which
    has the calls of one attempt added to it. -/
theorem attempt_recorded (E : Engine σ) (expression : String) (op : Operation) (cancelled : Bool)
    (s : σ) (calls : List Entry) :
    let plain := E.attempt expression op cancelled s
    ∃ made, Attempted expression op made plain.reply.outline ∧
      E.recorded.attempt expression op cancelled (s, calls) =
        ⟨plain.reply, (plain.state, calls ++ made), plain.log⟩ := by
  rcases hfirst : E.evaluate expression op cancelled s with ⟨_ | e | _, t, log⟩
  · rename_i r
    refine ⟨[.evaluated expression op (.value ()),
      .rendered (E.render r cancelled t).reply.outline], ?_, ?_⟩
    · simp only [attempt, hfirst]
      exact .rendered _
    · simp only [attempt, recorded, hfirst, Call.listed, Reply.outline, List.append_assoc,
        List.singleton_append]
  · refine ⟨[.evaluated expression op (.failure e)], ?_, ?_⟩
    · simp only [attempt, hfirst]
      exact .failed e
    · simp only [attempt, recorded, hfirst, Call.listed, Reply.outline]
  · refine ⟨[.evaluated expression op .breakdown], ?_, ?_⟩
    · simp only [attempt, hfirst]
      exact .brokeDown
    · simp only [attempt, recorded, hfirst, Call.listed, Reply.outline]

end Engine

namespace Calculation

variable {σ : Type}

/-- The end of a calculation drains the messages once. -/
theorem conclude_recorded (E : Engine σ) (r : Request) (op : Operation) (p : Prepared)
    (text : String) (s : σ) (calls : List Engine.Entry) :
    conclude E.recorded r op p text (s, calls) =
      (((conclude E r op p text s).1, calls ++ [.drained (E.drain s).reply.outline]),
        (conclude E r op p text s).2) := rfl

/-- A step leads to the same phase and has the same effects with a recorded
    engine, whose own state changes as it does without the record. -/
theorem step_recorded (E : Engine σ) (registry : Registry) (session : Radix) (cancelled : Bool)
    (r : Request) (phase : Phase) (s : σ) (calls : List Engine.Entry) :
    let plain := step E registry session cancelled r phase s
    let taken := step E.recorded registry session cancelled r phase (s, calls)
    taken.phase = plain.phase ∧ taken.effects = plain.effects ∧ taken.state.1 = plain.state := by
  cases phase with
  | preparing op => exact ⟨rfl, rfl, rfl⟩
  | finished => exact ⟨rfl, rfl, rfl⟩
  | evaluating op p =>
      rcases Engine.attempt_recorded E p.expression op cancelled s calls with ⟨made, -, hattempt⟩
      simp only [step, evaluate, hattempt]
      rcases E.attempt p.expression op cancelled s with ⟨_ | e | _, t, log⟩
      · simp only [conclude_recorded, and_self]
      · exact ⟨rfl, rfl, rfl⟩
      · exact ⟨rfl, rfl, rfl⟩

end Calculation

end ExactCalc
