import ExactCalc.Event

/-!
# Calculations

One calculation, from the typed text to the event that ends it.

A calculation goes through phases. The text is prepared first; then the engine
evaluates the expression and renders the result. A numeric calculation that
fails on a bad digit or an undefined name, or on anything at all while a name of
its expression is undefined, starts over as a simplification, once. Each phase
says what is to be done on the way: the preferences looked after, records noted
in the journal, events published.

Between two phases everything else may go on. Only the second phase needs the
engine, so a calculation whose engine has to wait stands before that phase.

## Main definitions

* `Request`: What a calculation was asked for.
* `Calculation.Phase`, `Calculation.Effect`: How far it has come, and what it
  has done to the world.
* `Calculation.prepare`, `Calculation.evaluate`, `Calculation.step`: The phases.

## Theorems

* `rank_step_lt`: Every step leads to a phase nearer to the end.
-/

namespace ExactCalc

/-- What a calculation was asked for. -/
structure Request where
  /-- The sequence its events belong to. -/
  sequence : Nat
  operation : Operation
  /-- The typed text, without blanks around it. -/
  text : String
  deriving DecidableEq, Repr

namespace Calculation

/-- How far a calculation has come. -/
inductive Phase where
  /-- The text is to be prepared. -/
  | preparing (op : Operation)
  /-- The engine is to evaluate the expression. -/
  | evaluating (op : Operation) (p : Prepared)
  | finished
  deriving DecidableEq, Repr

/-- How many steps may still be taken. -/
def Phase.rank : Phase → Nat
  | .preparing .numeric => 4
  | .evaluating .numeric _ => 3
  | .preparing .simplify => 2
  | .evaluating .simplify _ => 1
  | .finished => 0

/-- What a calculation does to the world around it. -/
inductive Effect where
  /-- Has the preferences checked if that is due. -/
  | checkPreferences
  | note (r : Journal.Record)
  /-- Publishes an event in the sequence of the calculation. -/
  | publish (e : Event)
  deriving DecidableEq, Repr

/-- What a step leads to: the next phase, the state of the engine, and what was
    done. -/
structure Step (σ : Type) where
  phase : Phase
  state : σ
  effects : List Effect

/-- The phase that a request starts in. -/
def start (r : Request) : Phase := .preparing r.operation

/-- A record of the calculator about a sequence. -/
def record (level : Journal.Level) (message : String) (sequence : Nat)
    (fields : List (String × String)) : Journal.Record :=
  ⟨level, .calculator, message, ("sequence_id", toString sequence) :: fields⟩

/-- The record of a text that has been prepared. -/
def preparationRecord (session : Radix) (text : String) (p : Prepared) : Journal.Record :=
  ⟨.trace, .preparation, "prétraitement",
    [("saisie", Text.quote text), ("expression", p.expression), ("base", session.name)]⟩

/-- Prepares the text. -/
def prepare (registry : Registry) (session : Radix) (r : Request) (op : Operation) :
    Phase × List Effect :=
  match Prepared.ofText registry session r.text with
  | .ok p =>
    (.evaluating op p, [.checkPreferences, .note (preparationRecord session r.text p)])
  | .error e =>
    (.finished,
      [.checkPreferences,
       .note (record .debug "prétraitement refusé" r.sequence
        [("operation", op.name), ("erreur", e.describe)]),
       .publish (.calculationFailed (.ofPreparation op r.text e))])

/-- Whether a failed calculation starts over as a simplification. -/
def startsOver (op : Operation) (p : Prepared) : EvalError → Bool
  | .digitOutsideRadix _ _ | .undefinedVariable _ => op == .numeric
  | _ => op == .numeric && p.hasUndefined

/-- The failure of an engine that broke down. -/
def breakdownError : EvalError := .internal "le moteur s’est arrêté brutalement"

/-- What is done when the engine breaks down; the failure is told of the request
    as it was made. -/
def breakdownEffects (r : Request) : List Effect :=
  [.note (record .error "moteur en panique" r.sequence [("operation", r.operation.name)]),
   .publish (.calculationFailed (.ofEngine r.operation r.text breakdownError))]

/-- What is done about a result. -/
def resultEffects (r : Request) (op : Operation) (p : Prepared) (text : String) : List Effect :=
  [.note (record .debug "calcul terminé" r.sequence
    [("operation", op.name), ("expression", p.expression), ("resultat", text)]),
   .publish (.calculationResult ⟨op, p.expression, text⟩)]

/-- What is done about the messages of the engine, before the result; that they
    cannot be had stops no result. -/
def messageEffects (r : Request) (messages : Except EvalError (List Message)) : List Effect :=
  match messages with
  | .ok [] => []
  | .ok ms => [.publish (.calculationMessages ms)]
  | .error e =>
    [.note (record .warn "lecture des messages du moteur impossible" r.sequence
      [("erreur", e.message)])]

/-- Ends a calculation whose result has been rendered: the state of the engine
    once its messages have been collected, and what is done. -/
def conclude {σ : Type} (E : Engine σ) (r : Request) (op : Operation) (p : Prepared)
    (text : String) (s : σ) : σ × List Effect :=
  let drained := E.drain s
  (drained.state, drained.log.map .note ++
    match drained.reply with
    | .value ms => messageEffects r (.ok ms) ++ resultEffects r op p text
    | .failure e => messageEffects r (.error e) ++ resultEffects r op p text
    | .breakdown => breakdownEffects r)

/-- What follows an error of the engine. -/
def afterError (r : Request) (op : Operation) (p : Prepared) (e : EvalError) :
    Phase × List Effect :=
  if e = .interrupted then
    (.finished,
      [.note (record .debug "calcul interrompu" r.sequence []), .publish .calculationCancelled])
  else if startsOver op p e then
    (.preparing .simplify,
      [.note (record .debug "reprise en simplification" r.sequence [("erreur", e.message)])])
  else
    (.finished,
      [.note (record .debug "calcul en échec" r.sequence
        [("operation", op.name), ("erreur", e.message)]),
       .publish (.calculationFailed (.ofEngine op p.expression e))])

/-- Has the engine evaluate the expression and render the result. -/
def evaluate {σ : Type} (E : Engine σ) (cancelled : Bool) (r : Request) (op : Operation)
    (p : Prepared) (s : σ) : Step σ :=
  let attempt := E.attempt p.expression op cancelled s
  let log := attempt.log.map .note
  match attempt.reply with
  | .value text =>
    let (state, effects) := conclude E r op p text attempt.state
    ⟨.finished, state, log ++ effects⟩
  | .failure e =>
    let (phase, effects) := afterError r op p e
    ⟨phase, attempt.state, log ++ effects⟩
  | .breakdown => ⟨.finished, attempt.state, log ++ breakdownEffects r⟩

/-- Takes the next step of a calculation, with the registry and the session's
    base as they are at that moment. -/
def step {σ : Type} (E : Engine σ) (registry : Registry) (session : Radix) (cancelled : Bool)
    (r : Request) (phase : Phase) (s : σ) : Step σ :=
  match phase with
  | .preparing op =>
    let (phase, effects) := prepare registry session r op
    ⟨phase, s, effects⟩
  | .evaluating op p => evaluate E cancelled r op p s
  | .finished => ⟨.finished, s, []⟩

theorem rank_prepare_lt (registry : Registry) (session : Radix) (r : Request) (op : Operation) :
    (prepare registry session r op).1.rank < (Phase.preparing op).rank := by
  unfold prepare
  split <;> cases op <;> simp [Phase.rank]

theorem numeric_of_startsOver {op : Operation} {p : Prepared} {e : EvalError}
    (h : startsOver op p e = true) : op = .numeric := by
  cases op with
  | numeric => rfl
  | simplify => cases e <;> simp [startsOver] at h

theorem rank_afterError_lt (r : Request) (op : Operation) (p : Prepared) (e : EvalError) :
    (afterError r op p e).1.rank < (Phase.evaluating op p).rank := by
  unfold afterError
  split
  · cases op <;> simp [Phase.rank]
  · split
    · next h => rw [numeric_of_startsOver h]; simp [Phase.rank]
    · cases op <;> simp [Phase.rank]

/-- Every step leads to a phase nearer to the end. -/
theorem rank_step_lt {σ : Type} (E : Engine σ) (registry : Registry) (session : Radix)
    (cancelled : Bool) (r : Request) (phase : Phase) (s : σ) (h : phase ≠ .finished) :
    (step E registry session cancelled r phase s).phase.rank < phase.rank := by
  have pos : ∀ op p, 0 < (Phase.evaluating op p).rank := fun op p => by
    cases op <;> simp [Phase.rank]
  cases phase with
  | preparing op => exact rank_prepare_lt registry session r op
  | evaluating op p =>
    simp only [step, evaluate]
    split
    · exact pos op p
    · exact rank_afterError_lt r op p _
    · exact pos op p
  | finished => exact absurd rfl h

end Calculation

end ExactCalc
