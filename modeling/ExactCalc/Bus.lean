import ExactCalc.Event

/-!
# The Event Bus

Events on their way to those who listen.

Publishing an event only queues it. A single sequencer takes events off the
queue in order and delivers each to the listeners as they were listed when its
delivery began; what a listener does meanwhile, be it that listeners come and
go or that further events are published, concerns later deliveries only. A
listener that breaks down keeps nobody else from being served.

A listener may be listed several times, and is then served as often.

## Main definitions

* `Bus`: Listeners, the last number given out, and the queue.
* `Bus.nextStamp`, `Bus.publish`, `Bus.fire`, `Bus.fireIn`: Publishing.
* `Bus.subscribe`, `Bus.unsubscribe`: Listening.
* `Bus.Action`, `Bus.Reaction`, `Bus.Behaviour`: What listeners do about a
  delivery.
* `Bus.Run.deliverNext`, `Bus.Run.settle`: The sequencer.
-/

namespace ExactCalc

/-- An event with its stamp. -/
structure Delivery where
  stamp : Stamp
  event : Event
  deriving DecidableEq, Repr

/-- A bus with listeners of type `L`. -/
structure Bus (L : Type) where
  /-- The listeners, in the order in which they are served. -/
  listeners : List L
  /-- The last number given out, zero if none was. -/
  lastId : Nat
  /-- The events not yet delivered, the next one first. -/
  queue : List Delivery
  deriving DecidableEq, Repr

namespace Bus

variable {L : Type}

/-- A bus that nobody listens to. -/
def empty : Bus L := ⟨[], 0, []⟩

/-- A stamp that opens a sequence. -/
def nextStamp (b : Bus L) : Stamp × Bus L :=
  (⟨b.lastId + 1, b.lastId + 1⟩, { b with lastId := b.lastId + 1 })

/-- A stamp within a given sequence. -/
def nextStampIn (b : Bus L) (sequence : Nat) : Stamp × Bus L :=
  (⟨b.lastId + 1, sequence⟩, { b with lastId := b.lastId + 1 })

/-- Queues an event under a stamp. -/
def publish (b : Bus L) (stamp : Stamp) (e : Event) : Bus L :=
  { b with queue := b.queue ++ [⟨stamp, e⟩] }

/-- Queues an event that opens a sequence. -/
def fire (b : Bus L) (e : Event) : Stamp × Bus L :=
  let (stamp, b) := b.nextStamp
  (stamp, b.publish stamp e)

/-- Queues an event within a given sequence. -/
def fireIn (b : Bus L) (sequence : Nat) (e : Event) : Stamp × Bus L :=
  let (stamp, b) := b.nextStampIn sequence
  (stamp, b.publish stamp e)

/-- Lists a listener behind all others. -/
def subscribe (b : Bus L) (l : L) : Bus L :=
  { b with listeners := b.listeners ++ [l] }

/-- Removes every entry of a listener, and tells whether there was one. -/
def unsubscribe [DecidableEq L] (b : Bus L) (l : L) : Bool × Bus L :=
  (b.listeners.contains l, { b with listeners := b.listeners.filter (· ≠ l) })

/-- The record of an event that is being published. -/
def publicationRecord (stamp : Stamp) (e : Event) : Journal.Record :=
  ⟨.trace, .bus, "publication",
    [("event_id", toString stamp.id), ("sequence_id", toString stamp.sequence),
     ("type_", e.typeName)]⟩

/-- The record of a listener that broke down over an event. -/
def breakdownRecord (d : Delivery) : Journal.Record :=
  ⟨.error, .bus, "écouteur en panique, livraison poursuivie",
    [("event_id", toString d.stamp.id), ("sequence_id", toString d.stamp.sequence),
     ("type_", d.event.typeName)]⟩

/-- The record of the sequencer stopping, once nobody can publish any more. -/
def stopRecord : Journal.Record := ⟨.debug, .bus, "séquenceur arrêté", []⟩

/-- What is done to a bus, by a listener or from outside. -/
inductive Action (L : Type) where
  | subscribe (l : L)
  | unsubscribe (l : L)
  | fire (e : Event)
  | fireIn (sequence : Nat) (e : Event)
  | publish (stamp : Stamp) (e : Event)
  /-- Takes a number that no event will have. -/
  | takeNumber
  /-- Notes something in the journal, which leaves the bus alone. -/
  | note (r : Journal.Record)
  deriving DecidableEq, Repr

/-- The bus after an action. -/
def act [DecidableEq L] (b : Bus L) : Action L → Bus L
  | .subscribe l => b.subscribe l
  | .unsubscribe l => (b.unsubscribe l).2
  | .fire e => (b.fire e).2
  | .fireIn sequence e => (b.fireIn sequence e).2
  | .publish stamp e => b.publish stamp e
  | .takeNumber => b.nextStamp.2
  | .note _ => b

/-- What an action leaves in the journal. -/
def recordOf? (b : Bus L) : Action L → Option Journal.Record
  | .fire e => some (publicationRecord b.nextStamp.1 e)
  | .fireIn sequence e => some (publicationRecord (b.nextStampIn sequence).1 e)
  | .publish stamp e => some (publicationRecord stamp e)
  | .note r => some r
  | .subscribe _ | .unsubscribe _ | .takeNumber => none

/-- What a listener does about a delivery, and whether it breaks down in the
    end. -/
structure Reaction (L : Type) where
  actions : List (Action L)
  breaksDown : Bool
  deriving DecidableEq, Repr

/-- Doing nothing. -/
def Reaction.nothing : Reaction L := ⟨[], false⟩

/-- How listeners behave: what each does about a delivery, as the bus and what
    the listeners have in common then stand. `W` is what they have in common. -/
abbrev Behaviour (L W : Type) := Bus L → W → L → Delivery → Reaction L × W

/-- A bus under way: who has been served with what, and what has been noted
    meanwhile, both in order. -/
structure Run (L W : Type) where
  bus : Bus L
  world : W
  served : List (L × Delivery)
  log : List Journal.Record
  deriving DecidableEq, Repr

namespace Run

variable {W : Type} [DecidableEq L]

/-- Carries out an action. -/
def act (r : Run L W) (a : Action L) : Run L W :=
  { r with bus := r.bus.act a, log := r.log ++ (r.bus.recordOf? a).toList }

/-- Serves one listener. -/
def serve (behaviour : Behaviour L W) (d : Delivery) (r : Run L W) (l : L) : Run L W :=
  let (reaction, world) := behaviour r.bus r.world l d
  let r := reaction.actions.foldl act { r with world := world, served := r.served ++ [(l, d)] }
  if reaction.breaksDown then { r with log := r.log ++ [breakdownRecord d] } else r

/-- Delivers one event to the listeners as they are listed at this moment. -/
def deliver (behaviour : Behaviour L W) (r : Run L W) (d : Delivery) : Run L W :=
  r.bus.listeners.foldl (serve behaviour d) r

/-- Delivers the next event of the queue, if there is one. -/
def deliverNext (behaviour : Behaviour L W) (r : Run L W) : Run L W :=
  match r.bus.queue with
  | [] => r
  | d :: rest => deliver behaviour { r with bus := { r.bus with queue := rest } } d

/-- Delivers as many events as are queued at this moment. -/
def deliverQueued (behaviour : Behaviour L W) (r : Run L W) : Run L W :=
  r.bus.queue.foldl (fun r _ => deliverNext behaviour r) r

/-- Delivers what is queued, then what was queued meanwhile, and so on for at
    most the given number of rounds. -/
def settle (behaviour : Behaviour L W) : Nat → Run L W → Run L W
  | 0, r => r
  | rounds + 1, r =>
    if r.bus.queue.isEmpty then r else settle behaviour rounds (deliverQueued behaviour r)

end Run

end Bus

end ExactCalc
