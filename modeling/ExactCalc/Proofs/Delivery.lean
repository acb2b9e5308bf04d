import ExactCalc.Bus

/-!
# Deliveries

An event is delivered once to each entry of the list as it was when its delivery
began.

The sequencer is not alone. The listeners it serves come and go meanwhile, send
others away and publish further events, and so does anyone outside, at any moment
between two services. What happens is therefore kept in a chronicle here, and the
bus is compared with what the chronicle says: who is listed at a moment, which
events have been queued, and who is due to be served with which of them. A
listener that breaks down leaves its mark in the journal and nowhere else.

`Account` is the invariant. Serving is a matter of two lists, those who have been
served and those who are still to be, and together they are always those who are
due; so nobody is left out, served twice, or served who was not listed. That the
second list becomes empty in the end, and the queue shorter, needs the sequencer
to go on, and nothing else.

## Main definitions

* `Bus.Occurrence`: What can happen on a bus.
* `Bus.listed`, `enqueued`, `begun`, `served`, `due`: What a chronicle says.
* `Bus.Progress`, `Bus.Turn`, `Bus.Progress.turn`: A bus in the middle of a
  delivery, and what happens next.
* `Bus.Progress.Account`: What the bus has to do with the chronicle.

## Theorems

* `reflects_act`: An action is carried out as it is written down.
* `account_turn`: Every turn keeps the account.
* `exists_begun`, `exists_idle`: What is queued is delivered in the end.
* `turns_deliverNext`: Delivering one event is a row of turns.
* `delivered_as_listed`: Who is served with what, and when.
-/

namespace ExactCalc

namespace Bus

variable {L W : Type}

/-- Something that happens on a bus. -/
inductive Occurrence (L : Type) where
  /-- Something is done to the bus, by a listener or from outside. -/
  | action (a : Action L)
  /-- The delivery of an event begins. -/
  | delivery (d : Delivery)
  /-- A listener is served. -/
  | service (l : L) (d : Delivery)
  deriving DecidableEq

section Chronicle

/-- Who is listed after what has happened, the latest first. -/
def listed [DecidableEq L] : List (Occurrence L) → List L
  | [] => []
  | .action (.subscribe l) :: past => listed past ++ [l]
  | .action (.unsubscribe l) :: past => (listed past).filter (· ≠ l)
  | _ :: past => listed past

/-- How many numbers have been given out. -/
def numbers : List (Occurrence L) → Nat
  | [] => 0
  | .action (.fire _) :: past => numbers past + 1
  | .action (.fireIn _ _) :: past => numbers past + 1
  | .action .takeNumber :: past => numbers past + 1
  | _ :: past => numbers past

/-- The events that have been queued, in order. -/
def enqueued : List (Occurrence L) → List Delivery
  | [] => []
  | .action (.fire e) :: past => enqueued past ++ [⟨⟨numbers past + 1, numbers past + 1⟩, e⟩]
  | .action (.fireIn sequence e) :: past => enqueued past ++ [⟨⟨numbers past + 1, sequence⟩, e⟩]
  | .action (.publish stamp e) :: past => enqueued past ++ [⟨stamp, e⟩]
  | _ :: past => enqueued past

/-- The events whose delivery has begun, in order. -/
def begun : List (Occurrence L) → List Delivery
  | [] => []
  | .delivery d :: past => begun past ++ [d]
  | _ :: past => begun past

/-- Who has been served with what, in order. -/
def served : List (Occurrence L) → List (L × Delivery)
  | [] => []
  | .service l d :: past => served past ++ [(l, d)]
  | _ :: past => served past

/-- Who is due to be served with what: with each event everyone who was listed when
    its delivery began. -/
def due [DecidableEq L] : List (Occurrence L) → List (L × Delivery)
  | [] => []
  | .delivery d :: past => due past ++ (listed past).map (·, d)
  | _ :: past => due past

/-- What has been queued once stays among what has been queued. -/
theorem enqueued_grows_cons (x : Occurrence L) (past : List (Occurrence L)) :
    enqueued past <+: enqueued (x :: past) := by
  rcases x with a | d | ⟨l, d⟩
  · cases a with
    | fire | fireIn | publish => exact List.prefix_append _ _
    | _ => exact List.prefix_refl _
  · exact List.prefix_refl _
  · exact List.prefix_refl _

theorem enqueued_grows (later past : List (Occurrence L)) :
    enqueued past <+: enqueued (later ++ past) := by
  induction later with
  | nil => exact List.prefix_refl _
  | cons x later ih => exact ih.trans (enqueued_grows_cons x (later ++ past))

/-- A delivery that begins after other occurrences than deliveries is one of those
    that had begun before. -/
theorem delivery_of_append (news : List (Occurrence L)) {past later earlier : List (Occurrence L)}
    {d : Delivery}
    (hnews : ∀ x ∈ news, ∀ d, x ≠ .delivery d)
    (h : news ++ past = later ++ .delivery d :: earlier) :
    ∃ later', past = later' ++ .delivery d :: earlier := by
  induction news generalizing later with
  | nil => exact ⟨later, h⟩
  | cons x news ih =>
      rcases later with _ | ⟨y, later⟩
      · exact absurd (List.cons.inj h).1 (hnews x List.mem_cons_self d)
      · exact ih (fun z hz => hnews z (List.mem_cons_of_mem x hz)) (List.cons.inj h).2

end Chronicle

variable [DecidableEq L]

/-- A bus under way, with those who are still to be served with the event that is
    being delivered, and with what has happened so far, the latest first. -/
structure Progress (L W : Type) where
  run : Run L W
  pending : List (L × Delivery)
  past : List (Occurrence L)

/-- Whose turn it is. -/
inductive Turn (L : Type) where
  /-- Something is done to the bus from outside. -/
  | outside (a : Action L)
  /-- The sequencer serves the next listener, or begins the next delivery. -/
  | sequencer
  deriving DecidableEq

namespace Progress

/-- A bus on which nothing has happened yet. -/
def start (world : W) : Progress L W := ⟨⟨.empty, world, [], []⟩, [], []⟩

/-- What happens in a turn. -/
def turn (behaviour : Behaviour L W) (p : Progress L W) : Turn L → Progress L W
  | .outside a => ⟨p.run.act a, p.pending, .action a :: p.past⟩
  | .sequencer =>
    match p.pending with
    | (l, d) :: rest =>
      ⟨p.run.serve behaviour d l, rest,
        ((behaviour p.run.bus p.run.world l d).1.actions.map .action).reverse ++
          .service l d :: p.past⟩
    | [] =>
      match p.run.bus.queue with
      | d :: queue =>
        ⟨{ p.run with bus := { p.run.bus with queue := queue } },
          p.run.bus.listeners.map (·, d), .delivery d :: p.past⟩
      | [] => p

/-- How far a bus has come after as many turns of a schedule. -/
def after (behaviour : Behaviour L W) (world : W) (schedule : Nat → Turn L) (n : Nat) :
    Progress L W :=
  ((List.range n).map schedule).foldl (turn behaviour) (start world)

end Progress

/-- The listeners, the numbers and the queue of a bus are what has happened to it. -/
structure Reflects (b : Bus L) (past : List (Occurrence L)) : Prop where
  listeners : b.listeners = listed past
  numbers : b.lastId = numbers past
  queue : begun past ++ b.queue = enqueued past

/-- What a bus under way has to do with what has happened on it. -/
structure Progress.Account (p : Progress L W) : Prop where
  /-- Events are taken off the queue in the order in which they were queued. -/
  bus : Reflects p.run.bus p.past
  /-- The bus tells who has been served. -/
  told : p.run.served = served p.past
  /-- Those who have been served and those still to be are those who are due. -/
  due : served p.past ++ p.pending = due p.past
  /-- No delivery begins before the one before it is over. -/
  orderly : ∀ later d earlier, p.past = later ++ .delivery d :: earlier →
    served earlier = Bus.due earlier

section Actions

variable {b : Bus L} {past : List (Occurrence L)}

/-- An action is carried out as it is written down. -/
theorem reflects_act (h : Reflects b past) (a : Action L) :
    Reflects (b.act a) (.action a :: past) := by
  rcases h with ⟨hlisteners, hnumbers, hqueue⟩
  have hlonger : ∀ d, begun past ++ (b.queue ++ [d]) = enqueued past ++ [d] := fun d => by
    rw [← List.append_assoc, hqueue]
  cases a with
  | subscribe l => exact ⟨congrArg (· ++ [l]) hlisteners, hnumbers, hqueue⟩
  | unsubscribe l => exact ⟨congrArg (List.filter (· ≠ l)) hlisteners, hnumbers, hqueue⟩
  | fire e =>
      refine ⟨hlisteners, congrArg (· + 1) hnumbers, ?_⟩
      rw [enqueued, ← hnumbers]
      exact hlonger _
  | fireIn sequence e =>
      refine ⟨hlisteners, congrArg (· + 1) hnumbers, ?_⟩
      rw [enqueued, ← hnumbers]
      exact hlonger _
  | publish stamp e => exact ⟨hlisteners, hnumbers, hlonger _⟩
  | takeNumber => exact ⟨hlisteners, congrArg (· + 1) hnumbers, hqueue⟩
  | note r => exact ⟨hlisteners, hnumbers, hqueue⟩

theorem reflects_actions (h : Reflects b past) (actions : List (Action L)) :
    Reflects (actions.foldl Bus.act b) ((actions.map .action).reverse ++ past) := by
  induction actions generalizing b past with
  | nil => exact h
  | cons a actions ih =>
      rw [List.map_cons, List.reverse_cons, List.append_assoc]
      exact ih (reflects_act h a)

/-- Actions neither begin a delivery nor serve anyone. -/
theorem served_actions (actions : List (Action L)) (past : List (Occurrence L)) :
    served ((actions.map .action).reverse ++ past) = served past ∧
      due ((actions.map .action).reverse ++ past) = due past ∧
      begun ((actions.map .action).reverse ++ past) = begun past := by
  induction actions generalizing past with
  | nil => exact ⟨rfl, rfl, rfl⟩
  | cons a actions ih =>
      rw [List.map_cons, List.reverse_cons, List.append_assoc]
      exact ih (.action a :: past)

theorem actions_run (actions : List (Action L)) (r : Run L W) :
    (actions.foldl Run.act r).bus = actions.foldl Bus.act r.bus ∧
      (actions.foldl Run.act r).served = r.served ∧
      (actions.foldl Run.act r).world = r.world := by
  induction actions generalizing r with
  | nil => exact ⟨rfl, rfl, rfl⟩
  | cons a actions ih => exact ih (r.act a)

/-- Serving a listener is to let it do what it does, whether or not it breaks down. -/
theorem serve_run (behaviour : Behaviour L W) (d : Delivery) (r : Run L W) (l : L) :
    (r.serve behaviour d l).bus =
        (behaviour r.bus r.world l d).1.actions.foldl Bus.act r.bus ∧
      (r.serve behaviour d l).served = r.served ++ [(l, d)] ∧
      (r.serve behaviour d l).world = (behaviour r.bus r.world l d).2 := by
  have hactions := actions_run (behaviour r.bus r.world l d).1.actions
    { r with world := (behaviour r.bus r.world l d).2, served := r.served ++ [(l, d)] }
  unfold Run.serve
  simp only
  split <;> exact hactions

end Actions

namespace Progress

section Turns

variable {behaviour : Behaviour L W} {p : Progress L W}

/-- Every turn keeps the account. -/
theorem account_turn (h : p.Account) (t : Turn L) : (p.turn behaviour t).Account := by
  rcases p with ⟨r, pending, past⟩
  rcases h with ⟨hbus, htold, hdue, horderly⟩
  simp only at hbus htold hdue horderly
  cases t with
  | outside a =>
      -- Nothing from outside begins a delivery or serves anybody.
      refine ⟨reflects_act hbus a, htold, hdue, fun later d earlier hpast => ?_⟩
      rcases delivery_of_append [.action a] (fun x hx d hd => by
        rw [List.mem_singleton.mp hx] at hd
        cases hd) hpast with
        ⟨later', hpast'⟩
      exact horderly later' d earlier hpast'
  | sequencer =>
      rcases pending with _ | ⟨⟨l, d⟩, rest⟩
      · unfold turn
        simp only
        rcases hqueue : r.bus.queue with _ | ⟨d, queue⟩
        · exact ⟨hbus, htold, hdue, horderly⟩
        · -- The list is copied: this is the moment that decides who is due.
          rw [List.append_nil] at hdue
          refine ⟨⟨hbus.listeners, hbus.numbers, ?_⟩, htold, ?_, fun later d' earlier hpast => ?_⟩
          · show begun past ++ [d] ++ queue = enqueued past
            rw [← hbus.queue, hqueue, List.append_assoc, List.singleton_append]
          · show served past ++ r.bus.listeners.map (·, d) =
              Bus.due past ++ (listed past).map (·, d)
            rw [hdue, hbus.listeners]
          · rcases later with _ | ⟨y, later⟩
            · rw [← (List.cons.inj hpast).2]
              exact hdue
            · exact horderly later d' earlier (List.cons.inj hpast).2
      · -- One listener is served, and what it does is put down behind the service.
        rcases serve_run behaviour d r l with ⟨hserved, htells, -⟩
        rcases served_actions (behaviour r.bus r.world l d).1.actions (.service l d :: past) with
          ⟨hservedIn, hdueIn, -⟩
        refine ⟨?_, ?_, ?_, fun later d' earlier hpast => ?_⟩
        · have hservice : Reflects r.bus (.service l d :: past) :=
            ⟨hbus.listeners, hbus.numbers, hbus.queue⟩
          have hactions := reflects_actions hservice (behaviour r.bus r.world l d).1.actions
          rw [← hserved] at hactions
          exact hactions
        · exact htells.trans ((congrArg (· ++ [(l, d)]) htold).trans hservedIn.symm)
        · simp only [turn]
          rw [hservedIn, hdueIn]
          show served past ++ [(l, d)] ++ rest = Bus.due past
          rw [List.append_assoc, List.singleton_append]
          exact hdue
        · -- Neither the service nor what the listener does begins a delivery.
          simp only [turn] at hpast
          rw [← List.singleton_append, ← List.append_assoc] at hpast
          rcases delivery_of_append _ (fun x hx d hd => by
            rw [hd, List.mem_append, List.mem_reverse, List.mem_map, List.mem_singleton] at hx
            rcases hx with ⟨a, -, ha⟩ | hx
            · cases ha
            · cases hx) hpast with
            ⟨later', hpast'⟩
          exact horderly later' d' earlier hpast'

/-- And so do any turns. -/
theorem account_turns (h : p.Account) (turns : List (Turn L)) :
    (turns.foldl (turn behaviour) p).Account := by
  induction turns generalizing p with
  | nil => exact h
  | cons t turns ih => exact ih (account_turn h t)

theorem account_start (world : W) : (start world : Progress L W).Account where
  bus := ⟨rfl, rfl, rfl⟩
  told := rfl
  due := rfl
  orderly later d earlier h := by
    rcases later with _ | ⟨x, later⟩ <;>
      cases h

/-- A turn adds to what has happened and takes nothing back. -/
theorem past_turn (behaviour : Behaviour L W) (p : Progress L W) (t : Turn L) :
    ∃ later, (p.turn behaviour t).past = later ++ p.past := by
  rcases p with ⟨r, pending, past⟩
  cases t with
  | outside a => exact ⟨[.action a], rfl⟩
  | sequencer =>
      rcases pending with _ | ⟨⟨l, d⟩, rest⟩
      · unfold turn
        simp only
        rcases r.bus.queue with _ | ⟨d, queue⟩
        · exact ⟨[], rfl⟩
        · exact ⟨[.delivery d], rfl⟩
      · simp only [turn]
        exact ⟨((behaviour r.bus r.world l d).1.actions.map .action).reverse ++ [.service l d],
          by rw [List.append_assoc, List.singleton_append]⟩

/-- Serving those who are still to be served with an event takes a turn for each. -/
theorem turns_pending (d : Delivery) (ls : List L) (r : Run L W) (past : List (Occurrence L)) :
    let p := (List.replicate ls.length .sequencer).foldl (turn behaviour) ⟨r, ls.map (·, d), past⟩
    p.run = ls.foldl (Run.serve behaviour d) r ∧ p.pending = [] := by
  induction ls generalizing r past with
  | nil => exact ⟨rfl, rfl⟩
  | cons l ls ih => exact ih (r.serve behaviour d l) _

/-- Delivering the next event is a row of turns of the sequencer, one to begin with and
    one for each listener. -/
theorem turns_deliverNext {r : Run L W} (hqueue : r.bus.queue ≠ [])
    (past : List (Occurrence L)) :
    let p := (List.replicate (r.bus.listeners.length + 1) .sequencer).foldl (turn behaviour)
      ⟨r, [], past⟩
    p.run = r.deliverNext behaviour ∧ p.pending = [] := by
  rcases hq : r.bus.queue with _ | ⟨d, queue⟩
  · exact absurd hq hqueue
  · have hbegin : turn behaviour ⟨r, [], past⟩ .sequencer =
        ⟨{ r with bus := { r.bus with queue := queue } }, r.bus.listeners.map (·, d),
          .delivery d :: past⟩ := by
      simp only [turn, hq]
    rw [List.replicate_succ, List.foldl_cons, hbegin]
    unfold Run.deliverNext
    rw [hq]
    exact turns_pending d r.bus.listeners { r with bus := { r.bus with queue := queue } } _

end Turns

section Schedules

variable (behaviour : Behaviour L W) (world : W) (schedule : Nat → Turn L)

@[simp] theorem after_succ (n : Nat) : after behaviour world schedule (n + 1) =
    (after behaviour world schedule n).turn behaviour (schedule n) := by
  rw [after, List.range_succ, List.map_append, List.foldl_append]
  rfl

theorem account_after (n : Nat) : (after behaviour world schedule n).Account :=
  account_turns (account_start world) _

theorem past_after {n m : Nat} (h : n ≤ m) : ∃ later,
    (after behaviour world schedule m).past = later ++ (after behaviour world schedule n).past := by
  induction h with
  | refl => exact ⟨[], rfl⟩
  | @step m _ ih =>
      rcases ih with ⟨later, hlater⟩
      rcases past_turn behaviour (after behaviour world schedule m) (schedule m) with ⟨news, hnews⟩
      refine ⟨news ++ later, ?_⟩
      rw [after_succ, hnews, hlater, List.append_assoc]

/-- The next turn of the sequencer finds the delivery where it is now: what is done
    from outside until then touches neither those still to be served nor the events
    whose delivery has begun. -/
theorem exists_sequencer (fair : ∀ n, ∃ m, n ≤ m ∧ schedule m = .sequencer) (n : Nat) :
    ∃ m, n ≤ m ∧ schedule m = .sequencer ∧
      (after behaviour world schedule m).pending = (after behaviour world schedule n).pending ∧
      begun (after behaviour world schedule m).past =
        begun (after behaviour world schedule n).past := by
  rcases fair n with ⟨last, hlast, hsequencer⟩
  generalize hdistance : last - n = distance
  induction distance generalizing n with
  | zero =>
      have heq : last = n := by omega
      exact ⟨n, Nat.le_refl n, heq ▸ hsequencer, rfl, rfl⟩
  | succ distance ih =>
      rcases hturn : schedule n with a | _
      · rcases ih (n + 1) (by omega) (by omega) with ⟨m, hm, hnext, hpending, hbegun⟩
        rw [after_succ, hturn] at hpending hbegun
        exact ⟨m, by omega, hnext, hpending, hbegun⟩
      · exact ⟨n, Nat.le_refl n, hturn, rfl, rfl⟩

/-- A delivery comes to its end. -/
theorem exists_idle (fair : ∀ n, ∃ m, n ≤ m ∧ schedule m = .sequencer) (n : Nat) :
    ∃ m, n ≤ m ∧ (after behaviour world schedule m).pending = [] ∧
      begun (after behaviour world schedule m).past =
        begun (after behaviour world schedule n).past := by
  generalize hpending : (after behaviour world schedule n).pending = pending
  induction pending generalizing n with
  | nil => exact ⟨n, Nat.le_refl n, hpending, rfl⟩
  | cons x rest ih =>
      rcases exists_sequencer behaviour world schedule fair n with
        ⟨u, hu, hsequencer, hsame, hbegun⟩
      have hturn : (after behaviour world schedule (u + 1)).pending = rest ∧
          begun (after behaviour world schedule (u + 1)).past =
            begun (after behaviour world schedule u).past := by
        rw [after_succ, hsequencer]
        generalize after behaviour world schedule u = p at hsame
        rcases p with ⟨r, pending, past⟩
        simp only at hsame
        rw [hsame, hpending]
        exact ⟨rfl, (served_actions _ _).2.2⟩
      rcases ih (u + 1) hturn.1 with ⟨m, hm, hidle, hbegun'⟩
      exact ⟨m, by omega, hidle, hbegun'.trans (hturn.2.trans hbegun)⟩

/-- As many deliveries begin as there are events in the queue, however many are queued
    behind them meanwhile. -/
theorem exists_begun (fair : ∀ n, ∃ m, n ≤ m ∧ schedule m = .sequencer) (n k : Nat)
    (hk : k ≤ (enqueued (after behaviour world schedule n).past).length) :
    ∃ m, n ≤ m ∧ k ≤ (begun (after behaviour world schedule m).past).length := by
  induction k with
  | zero => exact ⟨n, Nat.le_refl n, Nat.zero_le _⟩
  | succ k ih =>
      rcases ih (by omega) with ⟨m, hm, hbegun⟩
      by_cases hdone : k + 1 ≤ (begun (after behaviour world schedule m).past).length
      · exact ⟨m, hm, hdone⟩
      rcases exists_idle behaviour world schedule fair m with
        ⟨u, hu, hidle, hbegunU⟩
      rcases exists_sequencer behaviour world schedule fair u with
        ⟨v, hv, hsequencer, hpendingV, hbegunV⟩
      -- All that has been queued by now and has not begun is still in the queue.
      have hqueue : (after behaviour world schedule v).run.bus.queue ≠ [] := by
        intro hnil
        have haccount := (account_after behaviour world schedule v).bus.queue
        rw [hnil, List.append_nil, hbegunV, hbegunU] at haccount
        rcases past_after behaviour world schedule
          (show n ≤ v by omega) with ⟨later, hlater⟩
        have hgrown := (enqueued_grows later (after behaviour world schedule n).past).length_le
        rw [← hlater, ← haccount] at hgrown
        omega
      refine ⟨v + 1, by omega, ?_⟩
      rw [hidle] at hpendingV
      rw [hbegunU] at hbegunV
      rw [after_succ, hsequencer]
      generalize after behaviour world schedule v = p at hpendingV hqueue hbegunV
      rcases p with ⟨r, pending, past⟩
      simp only at hpendingV hqueue hbegunV
      rw [hpendingV]
      rcases hq : r.bus.queue with _ | ⟨d, queue⟩
      · exact absurd hq hqueue
      · simp only [turn, hq, begun, List.length_append, List.length_singleton, hbegunV]
        omega

end Schedules

end Progress

open Progress (turn start after)

/-- Events are delivered as they were queued, to those who were listed. Whatever
    listeners do when they are served, and whatever is done from outside in between,
    the deliveries begun and the events still queued are all events that were queued, in
    their order. Those served so far, followed by those still to be served, are with
    each event everyone who was listed when its delivery began, as often and in the
    order they were listed; and no delivery begins before all of them have been served
    with the events before. If the sequencer goes on, every event is delivered to the
    end, and delivering the next one of a bus is what the sequencer does if nothing comes
    in between. Unsubscribing removes every entry of a listener and no other, and tells
    whether there was one. -/
theorem delivered_as_listed (behaviour : Behaviour L W) (world : W) :
    (∀ turns : List (Turn L), (turns.foldl (turn behaviour) (start world)).Account) ∧
    (∀ schedule : Nat → Turn L, (∀ n, ∃ m, n ≤ m ∧ schedule m = .sequencer) →
      ∀ n, ∃ m, n ≤ m ∧
        enqueued (after behaviour world schedule n).past <+:
          begun (after behaviour world schedule m).past ∧
        served (after behaviour world schedule m).past =
          due (after behaviour world schedule m).past) ∧
    (∀ (r : Run L W) (past : List (Occurrence L)), r.bus.queue ≠ [] →
      let p := (List.replicate (r.bus.listeners.length + 1) .sequencer).foldl (turn behaviour)
        ⟨r, [], past⟩
      p.run = r.deliverNext behaviour ∧ p.pending = []) ∧
    ∀ (b : Bus L) (l : L), ((b.unsubscribe l).1 = true ↔ l ∈ b.listeners) ∧
      (b.unsubscribe l).2 = { b with listeners := b.listeners.filter (· ≠ l) } := by
  refine ⟨Progress.account_turns (Progress.account_start world), fun schedule fair n => ?_,
    fun r past hqueue => Progress.turns_deliverNext hqueue past,
    fun b l => ⟨List.contains_iff_mem, rfl⟩⟩
  rcases Progress.exists_begun behaviour world schedule fair n _
    (Nat.le_refl _) with ⟨u, hu, hbegun⟩
  rcases Progress.exists_idle behaviour world schedule fair u with
    ⟨m, hm, hidle, hsame⟩
  rcases Progress.past_after behaviour world schedule
    (show n ≤ m by omega) with ⟨later, hlater⟩
  have haccount := Progress.account_after behaviour world schedule m
  refine ⟨m, by omega, ?_, ?_⟩
  · -- Both are first parts of all that has been queued.
    have hgrown := enqueued_grows later (after behaviour world schedule n).past
    rw [← hlater, ← haccount.bus.queue] at hgrown
    exact List.prefix_of_prefix_length_le hgrown (List.prefix_append _ _) (hsame ▸ hbegun)
  · have hdue := haccount.due
    rw [hidle, List.append_nil] at hdue
    exact hdue

/-- Two listeners come, an event is fired, and from then on the sequencer goes on. -/
def dismissal : Nat → Turn Nat
  | 0 => .outside (.subscribe 1)
  | 1 => .outside (.subscribe 2)
  | 2 => .outside (.fire .calculationCancelled)
  | _ => .sequencer

/-- Whoever is served sends the second listener away. -/
def dismissing : Behaviour Nat Unit := fun _ world _ _ => (⟨[.unsubscribe 2], false⟩, world)

/-- A listener that is sent away while an event is being delivered is served with it all
    the same. -/
theorem delivered_as_listed_dismissed :
    let done := after dismissing () dismissal
    (∀ n, ∃ m, n ≤ m ∧ dismissal m = .sequencer) ∧
      (∃ m, 3 ≤ m ∧ enqueued (done 3).past <+: begun (done m).past ∧
        served (done m).past = due (done m).past) ∧
      (done 6).run.bus.listeners = [1] ∧
      served (done 6).past = [(1, ⟨⟨1, 1⟩, .calculationCancelled⟩),
        (2, ⟨⟨1, 1⟩, .calculationCancelled⟩)] := by
  have hfair : ∀ n, ∃ m, n ≤ m ∧ dismissal m = .sequencer :=
    fun n => ⟨n + 3, Nat.le_add_right n 3, rfl⟩
  rcases delivered_as_listed dismissing () with ⟨-, hdelivered, -⟩
  exact ⟨hfair, hdelivered dismissal hfair 3, by decide, by decide⟩

end Bus

end ExactCalc
