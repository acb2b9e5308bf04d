import ExactCalc.Bus
import ExactCalc.Calculation
import ExactCalc.Cancellation
import ExactCalc.History
import ExactCalc.Preferences
import ExactCalc.Settings

/-!
# Sessions

What a calculator knows, apart from the engine and the bus.

A session is asked for calculations and conversions, and it listens to its own
bus: edited text is calculated as it changes, a displayed result becomes the
value of the last answer, and a changed constant has the editor's text calculated
again. Whatever it is asked or told, it does two things. It queues jobs for the
worker, and it says what is to be done to the bus.

## Main definitions

* `Session`, `Session.Job`, `Session.Listener`: What is known, what is left to
  do, and who listens.
* `Session.submit`, `calculateEditor`, `calculateLive`, `cancel`: Calculations.
* `Session.keepAnswer`: The last answer.
* `Session.travel`: Going back and forth in the history.
* `Session.behaviour`: What the listeners of a calculator do.

## Theorems

* `submit_blank`: A blank text is answered at once.
* `keepAnswer_eq_self`: An answer that is kept already changes nothing.
-/

namespace ExactCalc

/-- Who listens to the bus of a calculator. -/
inductive Session.Listener where
  /-- The session itself. -/
  | session
  /-- One that only looks on. -/
  | recorder
  /-- One that breaks down over every event. -/
  | faulty
  deriving DecidableEq, Repr

/-- What is left for the worker to do. -/
inductive Session.Job where
  /-- A calculation, with its token. -/
  | calculation (r : Request) (token : Nat)
  /-- A conversion, with the sequence its events belong to. -/
  | conversion (sequence : Nat) (c : Conversion)
  deriving DecidableEq, Repr

/-- What a calculator knows. -/
structure Session where
  /-- Whether edited text is calculated as it changes, if the preferences agree. -/
  live : Bool
  preferences : Preferences
  /-- How long a check of the preferences stays good; zero is no time at all. -/
  recheckInterval : Nat
  /-- Whether the preferences have been checked. -/
  checked : Bool
  screen : Screen
  history : History.Keeper
  registry : Registry
  cancellations : Cancellations
  /-- The sequence of the last calculation of text being edited. -/
  liveSequence : Option Nat
  /-- The jobs left, the next one first. -/
  jobs : List Session.Job
  deriving DecidableEq, Repr

namespace Session

/-- What a session has done to its bus. -/
abbrev Action := Bus.Action Listener

/-- A session in which nothing has happened yet. -/
def new (settings : Settings) (preferences : Preferences) (registry : Registry)
    (history : History.Keeper) : Session where
  live := settings.live
  preferences := preferences
  recheckInterval := settings.recheckInterval
  checked := false
  screen := ⟨.empty, .empty⟩
  history := history
  registry := registry
  cancellations := .empty
  liveSequence := none
  jobs := []

/-- Whether edited text is calculated as it changes. -/
def isLive (s : Session) : Bool := s.live && s.preferences.live

/-- Queues a job. -/
def queue (s : Session) (j : Job) : Session := { s with jobs := s.jobs ++ [j] }

/-- Has a text calculated in a sequence. Nothing is calculated at once, and a
    blank text never needs to be. -/
def submit (s : Session) (sequence : Nat) (op : Operation) (text : String) :
    Session × List Action :=
  let text := Text.trimmed text
  if text.isEmpty then (s, [.fireIn sequence (.calculationResult (.empty op))])
  else
    let (token, cancellations) := s.cancellations.take sequence
    ({ s with cancellations := cancellations }.queue
      (.calculation ⟨sequence, op, text⟩ token), [])

/-- Has a text calculated under a fresh number in a sequence. -/
def submitNumbered (s : Session) (sequence : Nat) (op : Operation) (text : String) :
    Session × List Action :=
  let (s, actions) := s.submit sequence op text
  (s, .takeNumber :: actions)

/-- Has the editor's text calculated, in a sequence or in one of its own, which
    the next number opens. -/
def calculateEditor (s : Session) (next : Nat) (sequence : Option Nat) (op : Operation) :
    Session × List Action :=
  let request : Event := .calculationRequested s.screen.editor
  let fired := match sequence with
    | some sequence => .fireIn sequence request
    | none => .fire request
  let (s, actions) := s.submitNumbered (sequence.getD next) op s.screen.editor.text
  (s, fired :: actions)

/-- The record of a sequence being called off. -/
def cancellationRecord (sequence : Nat) : Journal.Record :=
  Calculation.record .debug "annulation demandée" sequence []

/-- Calls off the calculations of a sequence, and tells whether there were
    any. -/
def cancel (s : Session) (sequence : Nat) : Bool × Session × List Action :=
  let (found, cancellations) := s.cancellations.cancel sequence
  (found, { s with cancellations := cancellations },
    if found then [.note (cancellationRecord sequence)] else [])

/-- Calculates text being edited; the calculation of its last version is called
    off, unless it belongs to the same sequence. -/
def calculateLive (s : Session) (sequence : Nat) (text : String) : Session × List Action :=
  let (s, before) := match s.liveSequence with
    | some last => if last = sequence then (s, []) else (s.cancel last).2
    | none => (s, [])
  let (s, after) := { s with liveSequence := some sequence }.submitNumbered sequence .numeric text
  (s, before ++ after)

/-- The record of an answer being kept. -/
def answerRecord (text : String) : Journal.Record :=
  ⟨.debug, .calculator, "ans mis à jour", [("valeur", Text.quote text)]⟩

/-- Keeps a displayed result as the last answer, and tells of it if that is a
    change. -/
def keepAnswer (s : Session) (text : String) : Session × List Action :=
  let last := s.registry.find? Variable.answerName
  if last.any (·.value == text) then (s, [])
  else
    let answer := Variable.answer text
    let event : Event := match last with
      | some old => .constantChanged ⟨old, answer⟩
      | none => .constantAdded answer
    ({ s with registry := s.registry.save answer }, [.note (answerRecord text), .fire event])

/-- Has a number converted in a sequence, from the base that is preferred at
    this moment. -/
def convert (s : Session) (sequence : Nat) (value : String) (target : Radix) : Session :=
  s.queue (.conversion sequence ⟨value, s.preferences.radix, target⟩)

/-- Whether the preferences are to be checked. -/
def isCheckDue (s : Session) : Bool := !s.checked || s.recheckInterval == 0

/-- The record of a check that failed. -/
def checkFailureRecord (report : String) : Journal.Record :=
  ⟨.warn, .calculator, "revalidation des préférences impossible", [("erreur", report)]⟩

/-- Checks the preferences if that is due, and notes a failure. -/
def checkPreferences (s : Session) : Session × Option Journal.Record :=
  if s.isCheckDue then
    let (report, preferences) := s.preferences.check
    ({ s with preferences := preferences, checked := true }, report.map checkFailureRecord)
  else (s, none)

/-- Goes back or forth in the history, and tells whether another screen is shown
    now. -/
def travel (s : Session) (m : History.Move) : Bool × Session :=
  if s.history.isAvailable m then
    match s.history.move m with
    | (some screen, history) => (true, { s with screen := screen, history := history })
    | (none, history) => (false, { s with history := history })
  else (false, s)

/-- Whether a constant is not the last answer; only such a constant has the
    editor's text calculated again. -/
def concernsEditor (v : Variable) : Bool := v.name != Variable.answerName

/-- What the session does about an event. `next` is the next number of the
    bus. -/
def react (s : Session) (next : Nat) (d : Delivery) : Session × List Action :=
  match d.event with
  | .editorChanged c =>
    if s.isLive && c.old.text != c.new.text then s.calculateLive d.stamp.sequence c.new.text
    else (s, [])
  | .displayChanged c =>
    match c.new.result? with
    | some text => s.keepAnswer text
    | none => (s, [])
  | .constantChanged c =>
    if concernsEditor c.new then s.calculateEditor next none .numeric else (s, [])
  | .constantAdded v | .constantRemoved v =>
    if concernsEditor v then s.calculateEditor next none .numeric else (s, [])
  | .functionAdded _ | .functionChanged _ | .functionRemoved _ =>
    s.calculateEditor next none .numeric
  | .preferencesChanged => s.calculateEditor next (some d.stamp.sequence) .numeric
  | .calculationResult _ | .calculationFailed _ | .calculationCancelled
  | .calculationMessages _ | .conversionStarted _ | .conversionResult _ _
  | .conversionFailed _ _ | .calculationRequested _ => (s, [])

/-- What the listeners of a calculator do about a delivery. -/
def behaviour : Bus.Behaviour Listener Session := fun b s l d =>
  match l with
  | .session =>
    let (s, actions) := s.react (b.lastId + 1) d
    (⟨actions, false⟩, s)
  | .recorder => (.nothing, s)
  | .faulty => (⟨[], true⟩, s)

/-- A blank text is answered at once and leaves the session alone. -/
theorem submit_blank (s : Session) (sequence : Nat) (op : Operation) (text : String)
    (h : Text.trimmed text = "") :
    s.submit sequence op text = (s, [.fireIn sequence (.calculationResult (.empty op))]) := by
  simp [submit, h]

/-- An answer that is kept already changes nothing. -/
theorem keepAnswer_eq_self (s : Session) (v : Variable)
    (h : s.registry.find? Variable.answerName = some v) : s.keepAnswer v.value = (s, []) := by
  simp [keepAnswer, h]

end Session

end ExactCalc
