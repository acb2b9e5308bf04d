import ExactCalc.Numeral.Conversion
import ExactCalc.Pool
import ExactCalc.Session

/-!
# The Calculator

A session with its bus, its engine and a worker.

Whoever asks for something gets a stamp at once; the answer comes over the bus.
A single worker takes the jobs in the order in which they were queued. It goes
through the phases of a calculation until that is finished, or stops before a
phase in which the engine would have to wait, and then every later job waits
too. The sequencer goes on delivering all the while.

Letting things settle is to deliver what is queued on the bus, let the worker do
what is queued for it, and start again. What the session does about an event
never makes it do anything about the events that follow from that, so a few
rounds are always enough.

## Main definitions

* `Calculator`: The whole.
* `Calculator.evaluate`, `evaluateIn`, `evaluateEditor`, `convert`, `cancel`,
  `fire`, `fireIn`, `travel`: What can be asked.
* `Calculator.work`, `Calculator.settle`: The worker, and everything together.
-/

namespace ExactCalc

/-- A calculation that stands before a phase its engine has to wait for. -/
structure Calculator.Standing where
  request : Request
  token : Nat
  phase : Calculation.Phase
  deriving DecidableEq, Repr

/-- A calculator whose engine has states of type `σ`. -/
structure Calculator (σ : Type) where
  session : Session
  bus : Bus Session.Listener
  engineState : σ
  /-- The calculation the worker stands before, if it has to wait. -/
  standing : Option Calculator.Standing
  /-- What the recorder has been served with. -/
  seen : List Delivery
  journal : List Journal.Entry

namespace Calculator

variable {σ : Type}

/-! ## Setting up -/

/-- How many workers there are. -/
def workers : Nat := 1

/-- The record of a calculator that has been set up. -/
def readyRecord (places : Nat) : Journal.Record :=
  ⟨.info, .calculator, "moteur d’évaluation prêt",
    [("taille_pool", toString workers), ("chiffres", toString places)]⟩

/-- A calculator to which its own session listens. -/
def new (settings : Settings) (session : Session) (engineState : σ) : Calculator σ where
  session := session
  bus := Bus.empty.subscribe .session
  engineState := engineState
  standing := none
  seen := []
  journal := [⟨.caller, Pool.readyRecord workers⟩, ⟨.caller, readyRecord settings.places⟩]

/-- Lists a listener. -/
def subscribe (c : Calculator σ) (l : Session.Listener) : Calculator σ :=
  { c with bus := c.bus.subscribe l }

/-- Removes a listener, and tells whether it was listed. -/
def unsubscribe (c : Calculator σ) (l : Session.Listener) : Bool × Calculator σ :=
  let (found, bus) := c.bus.unsubscribe l
  (found, { c with bus := bus })

/-- Notes a record on behalf of an actor. -/
def note (c : Calculator σ) (actor : Journal.Actor) (r : Journal.Record) : Calculator σ :=
  { c with journal := c.journal ++ [⟨actor, r⟩] }

/-- Does something to the bus on behalf of an actor. -/
def act (actor : Journal.Actor) (c : Calculator σ) (a : Session.Action) : Calculator σ :=
  let noted := { c with bus := c.bus.act a }
  match c.bus.recordOf? a with
  | some r => noted.note actor r
  | none => noted

/-- Puts a session in place, and does to the bus what the session has asked
    for. -/
def adopt (c : Calculator σ) (actor : Journal.Actor) (change : Session × List Session.Action) :
    Calculator σ :=
  change.2.foldl (act actor) { c with session := change.1 }

/-! ## What can be asked -/

/-- Has a text calculated in a sequence of its own. -/
def evaluate (c : Calculator σ) (op : Operation) (text : String) : Stamp × Calculator σ :=
  let stamp := c.bus.nextStamp.1
  (stamp, c.adopt .caller (c.session.submitNumbered stamp.sequence op text))

/-- Has a text calculated in a given sequence. -/
def evaluateIn (c : Calculator σ) (sequence : Nat) (op : Operation) (text : String) :
    Stamp × Calculator σ :=
  ((c.bus.nextStampIn sequence).1,
    c.adopt .caller (c.session.submitNumbered sequence op text))

/-- Has the editor's text calculated. -/
def evaluateEditor (c : Calculator σ) (op : Operation) : Stamp × Calculator σ :=
  let next := c.bus.lastId + 1
  (⟨next + 1, next⟩, c.adopt .caller (c.session.calculateEditor next none op))

/-- Has a number converted to a base. -/
def convert (c : Calculator σ) (value : String) (target : Radix) : Stamp × Calculator σ :=
  let (stamp, bus) := c.bus.nextStamp
  (stamp, { c with bus := bus, session := c.session.convert stamp.sequence value target })

/-- Calls off a sequence, and tells whether anything was under way in it. -/
def cancel (c : Calculator σ) (sequence : Nat) : Bool × Calculator σ :=
  let (found, change) := c.session.cancel sequence
  (found, c.adopt .caller change)

/-- Prepares a text without calculating it. -/
def prepare (c : Calculator σ) (text : String) :
    Except PreparationError Prepared × Calculator σ :=
  let radix := c.session.preferences.radix
  match Prepared.ofText c.session.registry radix text with
  | .ok p => (.ok p, c.note .caller (Calculation.preparationRecord radix text p))
  | .error e => (.error e, c)

/-- Publishes an event in a sequence of its own. -/
def fire (c : Calculator σ) (e : Event) : Stamp × Calculator σ :=
  (c.bus.nextStamp.1, c.act .caller (.fire e))

/-- Publishes an event in a given sequence. -/
def fireIn (c : Calculator σ) (sequence : Nat) (e : Event) : Stamp × Calculator σ :=
  ((c.bus.nextStampIn sequence).1, c.act .caller (.fireIn sequence e))

/-- Goes back or forth in the history. -/
def travel (c : Calculator σ) (m : History.Move) : Bool × Calculator σ :=
  let (moved, session) := c.session.travel m
  (moved, { c with session := session })

/-! ## The worker -/

/-- The worker among the actors. -/
def worker : Journal.Actor := .worker 0

/-- Carries out what a calculation does to the world. -/
def apply (r : Request) (c : Calculator σ) : Calculation.Effect → Calculator σ
  | .checkPreferences =>
    let (session, failure) := c.session.checkPreferences
    failure.toList.foldl (note · worker) { c with session := session }
  | .note record => c.note worker record
  | .publish e => c.act worker (.fireIn r.sequence e)

/-- Gives back the token of a calculation. -/
def giveBack (c : Calculator σ) (r : Request) : Calculator σ :=
  { c with session := { c.session with
    cancellations := c.session.cancellations.giveBack r.sequence } }

/-- Whether the engine would have to wait in a phase. -/
def mustWait (engine : Registry → Engine σ) (c : Calculator σ) : Calculation.Phase → Bool
  | .evaluating _ p => (engine c.session.registry).waits c.engineState p.expression
  | .preparing _ | .finished => false

/-- Takes the next step of a calculation. -/
def step (engine : Registry → Engine σ) (c : Calculator σ) (r : Request) (token : Nat)
    (phase : Calculation.Phase) : Calculation.Phase × Calculator σ :=
  let taken := Calculation.step (engine c.session.registry) c.session.registry
    c.session.preferences.radix (c.session.cancellations.isCancelled token) r phase c.engineState
  (taken.phase, taken.effects.foldl (apply r) { c with engineState := taken.state })

/-- Goes on with a calculation until it is finished or has to wait, for at most
    the given number of steps. -/
def advance (engine : Registry → Engine σ) (r : Request) (token : Nat) :
    Nat → Calculation.Phase → Calculator σ → Calculator σ
  | 0, _, c => c.giveBack r
  | steps + 1, phase, c =>
    if c.mustWait engine phase then { c with standing := some ⟨r, token, phase⟩ }
    else
      let (phase, c) := c.step engine r token phase
      advance engine r token steps phase c

/-- Goes on with a calculation until it is finished or has to wait. -/
def proceed (engine : Registry → Engine σ) (c : Calculator σ) (s : Standing) : Calculator σ :=
  advance engine s.request s.token s.phase.rank s.phase c

/-- The record of a conversion that was refused. -/
def refusalRecord (sequence : Nat) (e : ConversionError) : Journal.Record :=
  Calculation.record .debug "conversion refusée" sequence [("erreur", e.message)]

/-- Carries out a conversion. -/
def performConversion (c : Calculator σ) (sequence : Nat) (conversion : Conversion) :
    Calculator σ :=
  let started := c.act worker (.fireIn sequence (.conversionStarted conversion))
  match Numeral.convert conversion.value conversion.source conversion.target with
  | .ok text => started.act worker (.fireIn sequence (.conversionResult conversion text))
  | .error e =>
    (started.note worker (refusalRecord sequence e)).act worker
      (.fireIn sequence (.conversionFailed conversion e))

/-- Does one job. -/
def perform (engine : Registry → Engine σ) (c : Calculator σ) : Session.Job → Calculator σ
  | .calculation r token => c.proceed engine ⟨r, token, Calculation.start r⟩
  | .conversion sequence conversion => c.performConversion sequence conversion

/-- Goes on with the calculation the worker stands before. -/
def resume (engine : Registry → Engine σ) (c : Calculator σ) : Calculator σ :=
  match c.standing with
  | some s => { c with standing := none }.proceed engine s
  | none => c

/-- Takes the next job, unless the worker has to wait. -/
def workNext (engine : Registry → Engine σ) (c : Calculator σ) : Calculator σ :=
  match c.standing, c.session.jobs with
  | none, job :: rest =>
    { c with session := { c.session with jobs := rest } }.perform engine job
  | _, _ => c

/-- Has the worker do whatever it can do at this moment. -/
def work (engine : Registry → Engine σ) (c : Calculator σ) : Calculator σ :=
  c.session.jobs.foldl (fun c _ => c.workNext engine) (c.resume engine)

/-! ## Everything together -/

/-- Delivers what is queued on the bus at this moment. -/
def deliver (c : Calculator σ) : Calculator σ :=
  let r := Bus.Run.deliverQueued Session.behaviour ⟨c.bus, c.session, [], []⟩
  let served := (r.served.filter (·.1 == .recorder)).map (·.2)
  { c with
    bus := r.bus
    session := r.world
    seen := c.seen ++ served
    journal := c.journal ++ r.log.map (⟨.sequencer, ·⟩) }

/-- Whether nothing is left that could be done. -/
def isQuiet (engine : Registry → Engine σ) (c : Calculator σ) : Bool :=
  c.bus.queue.isEmpty &&
    match c.standing with
    | some s => c.mustWait engine s.phase
    | none => c.session.jobs.isEmpty

/-- Delivers and works, for at most the given number of rounds. -/
def settleFor (engine : Registry → Engine σ) : Nat → Calculator σ → Calculator σ
  | 0, c => c
  | rounds + 1, c =>
    if c.isQuiet engine then c else settleFor engine rounds (c.deliver.work engine)

/-- How many rounds are always enough. -/
def rounds : Nat := 4

/-- Lets everything happen that can happen. -/
def settle (engine : Registry → Engine σ) (c : Calculator σ) : Calculator σ :=
  settleFor engine rounds c

/-- The end of a calculator: the sequencer stops. -/
def close (c : Calculator σ) : Calculator σ := c.note .sequencer Bus.stopRecord

end Calculator

end ExactCalc
