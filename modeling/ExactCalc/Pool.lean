import ExactCalc.Journal.Record

/-!
# The Pool of Workers

Workers that take tasks off a common queue.

A task that breaks down is noted and counts as no work done, but the worker goes
on to the next one, so every task is taken in the end.

## Main definitions

* `Pool`: How many workers there are, the tasks waiting, and the tasks done.
* `Pool.submit`, `Pool.work`: Queueing a task, and taking all of them.
-/

namespace ExactCalc

/-- A pool of workers. -/
structure Pool where
  size : Nat
  /-- The tasks not taken yet; a task is sound or it breaks down. -/
  waiting : List Bool
  /-- How many tasks have been done. -/
  done : Nat
  deriving DecidableEq, Repr

namespace Pool

/-- A pool with nothing to do; there is at least one worker. -/
def new (size : Nat) : Pool := ⟨max size 1, [], 0⟩

/-- The record of a pool that has been set up. -/
def readyRecord (size : Nat) : Journal.Record :=
  ⟨.debug, .pool, "pool d’évaluation prêt", [("taille", toString size)]⟩

/-- The record of a task that broke down. -/
def breakdownRecord : Journal.Record := ⟨.error, .pool, "tâche d’évaluation en panique", []⟩

/-- Queues a task. -/
def submit (p : Pool) (sound : Bool) : Pool := { p with waiting := p.waiting ++ [sound] }

/-- Takes every waiting task, and notes those that broke down. -/
def work (p : Pool) : Pool × List Journal.Record :=
  ({ p with waiting := [], done := p.done + p.waiting.count true },
    (p.waiting.filter (!·)).map fun _ => breakdownRecord)

end Pool

end ExactCalc
