import ExactCalc.Bus

/-!
# A Cast of Listeners

A bus with named listeners that each play a fixed part: one that only looks on,
one that breaks down, one that brings others in, one that sends others away,
and one that answers.

The one that answers reacts only to an event that opens its sequence, and the
answer belongs to that sequence, so an answer is hardly ever answered again:
only when its own number happens to be that of the sequence. Numbers grow, so
that happens once at most, and three rounds of deliveries always empty the
queue.

## Main definitions

* `Bus.Role`: The parts.
* `Bus.Cast`: A bus with its listeners.
* `Bus.Cast.settle`: All that follows from what has been published.
-/

namespace ExactCalc

namespace Bus

/-- The part a listener plays. Listeners are known by number. -/
inductive Role where
  | looksOn
  | breaksDown
  | brings (other : Nat)
  | sendsAway (other : Nat)
  | answers
  deriving DecidableEq, Repr

/-- What a listener does about a delivery. -/
def Role.react (role : Role) (d : Delivery) : Reaction Nat :=
  match role with
  | .looksOn => .nothing
  | .breaksDown => ⟨[], true⟩
  | .brings other => ⟨[.subscribe other], false⟩
  | .sendsAway other => ⟨[.unsubscribe other], false⟩
  | .answers =>
    ⟨if d.stamp.opensSequence then [.fireIn d.stamp.sequence (.functionAdded "echo")] else [],
      false⟩

/-- A bus whose listeners have names and play parts. A listener is known by its
    place in the cast. -/
structure Cast where
  bus : Bus Nat
  members : List (String × Role)
  deriving DecidableEq, Repr

namespace Cast

/-- Nobody listens. -/
def empty : Cast := ⟨.empty, []⟩

/-- The number of the listener last engaged under a name. -/
def number? (c : Cast) (name : String) : Option Nat :=
  (c.members.reverse.findIdx? (·.1 == name)).map (c.members.length - 1 - ·)

/-- Engages a listener for a part. -/
def engage (c : Cast) (name : String) (role : Role) : Cast :=
  { c with members := c.members ++ [(name, role)] }

/-- What the listener with a number does about a delivery; listeners of a cast
    have nothing in common. -/
def behaviour (c : Cast) : Behaviour Nat Unit := fun _ _ l d =>
  match c.members[l]? with
  | some (_, role) => (role.react d, ())
  | none => (.nothing, ())

/-- How many rounds of deliveries always empty the queue. -/
def rounds : Nat := 4

/-- Lets the sequencer deliver everything. -/
def settle (c : Cast) : Cast × List (Nat × Delivery) × List Journal.Record :=
  let r := Run.settle c.behaviour rounds ⟨c.bus, (), [], []⟩
  ({ c with bus := r.bus }, r.served, r.log)

/-- The events that a listener was served with and has kept, if its part is to
    look on. -/
def seenBy (c : Cast) (l : Nat) (served : List (Nat × Delivery)) : List Delivery :=
  match c.members[l]? with
  | some (_, .looksOn) => (served.filter (·.1 == l)).map (·.2)
  | _ => []

/-- The names of those who look on and have seen something, with what they
    saw. -/
def seen (c : Cast) (served : List (Nat × Delivery)) : List (String × List Delivery) :=
  ((List.range c.members.length).filterMap fun l =>
    (c.members[l]?).map fun (name, _) => (name, c.seenBy l served)).filter (!·.2.isEmpty)

end Cast

end Bus

end ExactCalc
