import ExactCalc.Engine.Exact
import ExactCalc.Proofs.Calculation.Submission
import ExactCalc.Proofs.Delivery

/-!
# Reactions

What a calculator does about its own events comes to an end.

A session listens to the bus that it publishes on, so an event may have it
publish others, start a calculation, and hear of the events of that calculation in
turn. None of what it hears from itself moves it, though. It publishes results,
failures and requests, which it passes over, and changes of the last answer, which
are the one kind of constant that it passes over too. `Event.stirs` tells which
events are different, and no event of a course or of a conversion is one of them.

The rest is a matter of counting. An event that stirs the session is paid for in
advance with the three events that can follow from it, and a job with the two that
its course can end with. `Calculator.load` adds up what has been seen, what is on
its way and what has been paid for. Delivering does not raise it, and neither does
working.

## Main definitions

* `Event.stirs`: Whether the session does anything about an event.
* `Session.Modest`: A change of the session that has little follow from it.
* `Calculator.load`: What has happened and what can still follow from it.
* `Calculator.Move`: What happens to a calculator when events are all it gets.
* `Calculator.round`: The worker does all it can, and what is queued is delivered.

## Theorems

* `react_of_calm`, `modest_react`: What the session does about an event.
* `brief_foldl`: What a course publishes.
* `load_deliver`, `load_work`: Nothing is raised by delivering and working.
* `round_round`: Everything is quiet after two rounds.
* `reactions_die_out`: How much follows from an event, and for how long.
-/

namespace ExactCalc

/-- Whether the session does anything about an event, as it may stand then. -/
def Event.stirs : Event → Bool
  | .editorChanged _ | .displayChanged _ => true
  | .constantChanged c => Session.concernsEditor c.new
  | .constantAdded v | .constantRemoved v => Session.concernsEditor v
  | .functionAdded _ | .functionChanged _ | .functionRemoved _ => true
  | .preferencesChanged => true
  | .calculationResult _ | .calculationFailed _ | .calculationCancelled
  | .calculationMessages _ | .conversionStarted _ | .conversionResult _ _
  | .conversionFailed _ _ | .calculationRequested _ => false

/-- The event that an action publishes. -/
def Bus.Action.event? {L : Type} : Bus.Action L → Option Event
  | .fire e | .fireIn _ e | .publish _ e => some e
  | .subscribe _ | .unsubscribe _ | .takeNumber | .note _ => none

/-- The events on their way. -/
def Bus.waiting {L : Type} (b : Bus L) : List Event := b.queue.map (·.event)

theorem Bus.waiting_announced {L : Type} (b : Bus L) : b.waiting = b.announced.map Prod.snd := by
  rw [waiting, announced, List.map_map]
  rfl

namespace Session

/-- The events that actions publish, in order. -/
def fired (actions : List Action) : List Event := actions.filterMap Bus.Action.event?

/-- Whether an action leaves the list of the listeners alone. -/
def keepsListeners : Action → Bool
  | .subscribe _ | .unsubscribe _ => false
  | .fire _ | .fireIn _ _ | .publish _ _ | .takeNumber | .note _ => true

/-- A change of a session with some jobs that has no more than a number of events
    follow from it, if a calculation has two of them: at most one calculation is
    started, no event that is published stirs the session, and no listener comes or
    goes. -/
structure Modest (limit : Nat) (jobs : List Job) (change : Session × List Action) : Prop where
  started : ∃ started : Option (Request × Nat),
    change.1.jobs = jobs ++ (started.map fun x => .calculation x.1 x.2).toList ∧
      (fired change.2).length + 2 * started.toList.length ≤ limit
  calm : ∀ e ∈ fired change.2, e.stirs = false
  listeners : ∀ a ∈ change.2, keepsListeners a = true

section Changes

variable (s : Session) {limit : Nat} {jobs : List Job}

theorem modest_nothing : Modest 0 s.jobs (s, []) where
  started := ⟨none, (List.append_nil _).symm, Nat.zero_le _⟩
  calm _ he := absurd he List.not_mem_nil
  listeners _ ha := absurd ha List.not_mem_nil

theorem Modest.mono {more : Nat} {change : Session × List Action} (h : Modest limit jobs change)
    (hmore : limit ≤ more) : Modest more jobs change := by
  rcases h with ⟨⟨started, hjobs, hlimit⟩, hcalm, hlisteners⟩
  exact ⟨⟨started, hjobs, Nat.le_trans hlimit hmore⟩, hcalm, hlisteners⟩

/-- An action that publishes nothing costs nothing. -/
theorem Modest.cons_silent {change : Session × List Action} (h : Modest limit jobs change)
    {a : Action} (hevent : a.event? = none) (hlistener : keepsListeners a = true) :
    Modest limit jobs (change.1, a :: change.2) := by
  have hfired : fired (a :: change.2) = fired change.2 := List.filterMap_cons_none hevent
  rcases h with ⟨hstarted, hcalm, hlisteners⟩
  exact ⟨hfired.symm ▸ hstarted, hfired.symm ▸ hcalm,
    List.forall_mem_cons.mpr ⟨hlistener, hlisteners⟩⟩

/-- An action that publishes an event costs that event. -/
theorem Modest.cons_event {change : Session × List Action} (h : Modest limit jobs change)
    {a : Action} {e : Event} (hevent : a.event? = some e) (hcalm : e.stirs = false)
    (hlistener : keepsListeners a = true) :
    Modest (limit + 1) jobs (change.1, a :: change.2) := by
  have hfired : fired (a :: change.2) = e :: fired change.2 := List.filterMap_cons_some hevent
  rcases h with ⟨⟨started, hjobs, hlimit⟩, hrest, hlisteners⟩
  refine ⟨⟨started, hjobs, ?_⟩, ?_, List.forall_mem_cons.mpr ⟨hlistener, hlisteners⟩⟩
  · simp only [hfired, List.length_cons]
    omega
  · simp only [hfired]
    exact List.forall_mem_cons.mpr ⟨hcalm, hrest⟩

/-- A text that is not blank is queued for the worker under a token of its sequence. -/
theorem submitNumbered_full {text : String} (sequence : Nat) (op : Operation)
    (h : Text.trimmed text ≠ "") :
    s.submitNumbered sequence op text =
      ({ s with
        cancellations := (s.cancellations.take sequence).2
        jobs := s.jobs ++ [.calculation ⟨sequence, op, Text.trimmed text⟩
          (s.cancellations.take sequence).1] }, [.takeNumber]) := by
  have hfull : (Text.trimmed text).isEmpty = false := by
    rw [Bool.eq_false_iff, ne_eq, String.isEmpty_iff]
    exact h
  simp only [submitNumbered, submit, hfull, Bool.false_eq_true, if_false]
  rfl

theorem submitNumbered_blank {text : String} (sequence : Nat) (op : Operation)
    (h : Text.trimmed text = "") :
    s.submitNumbered sequence op text =
      (s, [.takeNumber, .fireIn sequence (.calculationResult (.empty op))]) := by
  rw [submitNumbered, submit_blank s sequence op text h]

theorem modest_submitNumbered (sequence : Nat) (op : Operation) (text : String) :
    Modest 2 s.jobs (s.submitNumbered sequence op text) := by
  by_cases hblank : Text.trimmed text = ""
  · rw [submitNumbered_blank s sequence op hblank]
    have hanswer : Modest 1 s.jobs (s, [.fireIn sequence (.calculationResult (.empty op))]) :=
      (modest_nothing s).cons_event rfl rfl rfl
    exact (hanswer.mono (Nat.le_succ 1)).cons_silent rfl rfl
  · rw [submitNumbered_full s sequence op hblank]
    exact ⟨⟨some (_, _), rfl, Nat.le_refl 2⟩, fun e he => absurd he List.not_mem_nil,
      List.forall_mem_singleton.mpr rfl⟩

theorem modest_calculateEditor (next : Nat) (sequence : Option Nat) (op : Operation) :
    Modest 3 s.jobs (s.calculateEditor next sequence op) := by
  have hsubmitted := modest_submitNumbered s (sequence.getD next) op s.screen.editor.text
  unfold calculateEditor
  generalize s.submitNumbered (sequence.getD next) op s.screen.editor.text = change at hsubmitted
  cases sequence with
  | none => exact hsubmitted.cons_event rfl rfl rfl
  | some sequence => exact hsubmitted.cons_event rfl rfl rfl

/-- What is called off before a live calculation: that of the last version of the text,
    unless it belongs to the same sequence. -/
def supersede (sequence : Nat) : Session × List Action :=
  match s.liveSequence with
  | some last => if last = sequence then (s, []) else (s.cancel last).2
  | none => (s, [])

theorem calculateLive_eq (sequence : Nat) (text : String) :
    s.calculateLive sequence text =
      let submitted := Session.submitNumbered { (s.supersede sequence).1 with
        liveSequence := some sequence } sequence .numeric text
      (submitted.1, (s.supersede sequence).2 ++ submitted.2) := by
  unfold calculateLive supersede
  cases s.liveSequence with
  | none => simp only
  | some last => by_cases hsame : last = sequence <;> simp only [hsame, if_true, if_false]

/-- Calling off is noted and changes the tokens, and nothing else. -/
theorem supersede_spares (sequence : Nat) :
    (s.supersede sequence).1.jobs = s.jobs ∧ ∀ a ∈ (s.supersede sequence).2,
      a.event? = none ∧ keepsListeners a = true := by
  have hcancel : ∀ last, (s.cancel last).2.1.jobs = s.jobs ∧ ∀ a ∈ (s.cancel last).2.2,
      a.event? = none ∧ keepsListeners a = true := fun last => by
    refine ⟨rfl, fun a ha => ?_⟩
    simp only [cancel] at ha
    split at ha
    · rw [List.mem_singleton.mp ha]
      exact ⟨rfl, rfl⟩
    · exact absurd ha List.not_mem_nil
  have hnothing : ∀ a ∈ ([] : List Action), a.event? = none ∧ keepsListeners a = true :=
    fun _ ha => absurd ha List.not_mem_nil
  unfold supersede
  split
  · split
    · exact ⟨rfl, hnothing⟩
    · exact hcancel _
  · exact ⟨rfl, hnothing⟩

theorem modest_calculateLive (sequence : Nat) (text : String) :
    Modest 2 s.jobs (s.calculateLive sequence text) := by
  rcases supersede_spares s sequence with ⟨hjobs, hsilent⟩
  rw [calculateLive_eq, ← hjobs]
  generalize s.supersede sequence = called at hsilent
  rcases called with ⟨s', before⟩
  have hsubmitted := modest_submitNumbered { s' with liveSequence := some sequence } sequence
    .numeric text
  generalize Session.submitNumbered { s' with liveSequence := some sequence } sequence
    .numeric text = change at hsubmitted
  simp only at hsilent ⊢
  induction before with
  | nil => exact hsubmitted
  | cons a before ih =>
      rcases List.forall_mem_cons.mp hsilent with ⟨⟨hevent, hlistener⟩, hbefore⟩
      exact (ih hbefore).cons_silent hevent hlistener

/-- What is told of a new answer does not stir the session, since its name is that of the
    last answer. -/
theorem modest_keepAnswer (text : String) : Modest 1 s.jobs (s.keepAnswer text) := by
  unfold keepAnswer
  simp only
  split
  · exact (modest_nothing s).mono (Nat.zero_le 1)
  · have hsaved : ∀ e : Event, e.stirs = false → Modest 1 s.jobs
        ({ s with registry := s.registry.save (Variable.answer text) },
          [.note (answerRecord text), .fire e]) := fun e he => by
      have hnothing := modest_nothing { s with registry := s.registry.save (Variable.answer text) }
      exact (hnothing.cons_event rfl he rfl).cons_silent rfl rfl
    have hanswer : concernsEditor (Variable.answer text) = false := bne_self_eq_false _
    cases s.registry.find? Variable.answerName with
    | none => exact hsaved _ hanswer
    | some old => exact hsaved _ hanswer

/-- The session does nothing about an event that does not stir it. -/
theorem react_of_calm (next : Nat) {d : Delivery} (h : d.event.stirs = false) :
    s.react next d = (s, []) := by
  rcases d with ⟨stamp, e⟩
  simp only at h
  cases e with
  | constantChanged c =>
      simp only [Event.stirs] at h
      simp only [react, h, Bool.false_eq_true, if_false]
  | constantAdded v | constantRemoved v =>
      simp only [Event.stirs] at h
      simp only [react, h, Bool.false_eq_true, if_false]
  | editorChanged | displayChanged | functionAdded | functionChanged | functionRemoved
  | preferencesChanged =>
      exact absurd h (by simp only [Event.stirs, Bool.true_eq_false, not_false_eq_true])
  | _ => rfl

/-- At most three events follow from a delivery. -/
theorem modest_react (next : Nat) (d : Delivery) :
    Modest (if d.event.stirs then 3 else 0) s.jobs (s.react next d) := by
  by_cases hcalm : d.event.stirs = false
  · rw [react_of_calm s next hcalm, hcalm, if_neg Bool.false_ne_true]
    exact modest_nothing s
  · rw [Bool.not_eq_false] at hcalm
    simp only [hcalm, if_true]
    have hedit := fun sequence => modest_calculateEditor s next sequence .numeric
    have hnothing : Modest 3 s.jobs (s, []) := (modest_nothing s).mono (Nat.zero_le 3)
    have hconstant : ∀ b : Bool,
        Modest 3 s.jobs (if b then s.calculateEditor next none .numeric else (s, [])) := fun b => by
      cases b with
      | false => exact hnothing
      | true => exact hedit none
    unfold react
    split
    · split
      · exact (modest_calculateLive s _ _).mono (by decide)
      · exact hnothing
    · split
      · exact (modest_keepAnswer s _).mono (by decide)
      · exact hnothing
    · exact hconstant _
    · exact hconstant _
    · exact hconstant _
    · exact hedit none
    · exact hedit none
    · exact hedit none
    · exact hedit _
    all_goals exact hnothing

end Changes

end Session

namespace Calculation

variable {σ : Type}

/-- Few events, and none that stirs the session. -/
structure Brief (events : List Event) : Prop where
  few : events.length ≤ 2
  calm : ∀ e ∈ events, e.stirs = false

theorem brief_nil : Brief [] := ⟨Nat.zero_le 2, fun _ he => absurd he List.not_mem_nil⟩

theorem brief_singleton {e : Event} (h : e.stirs = false) : Brief [e] :=
  ⟨Nat.le_succ 1, List.forall_mem_singleton.mpr h⟩

theorem brief_pair {e e' : Event} (h : e.stirs = false) (h' : e'.stirs = false) :
    Brief [e, e'] :=
  ⟨Nat.le_refl 2, List.forall_mem_cons.mpr ⟨h, List.forall_mem_singleton.mpr h'⟩⟩

/-- The end of a calculation publishes a result, which messages may precede, or a
    failure. -/
theorem brief_conclude (E : Engine σ) (r : Request) (op : Operation) (p : Prepared)
    (text : String) (s : σ) : Brief (published (conclude E r op p text s).2) := by
  rw [published_conclude]
  rcases (E.drain s).reply with (_ | ⟨m, ms⟩) | e | _
  · exact brief_singleton rfl
  · exact brief_pair rfl rfl
  · exact brief_singleton rfl
  · exact brief_singleton rfl

/-- A step publishes little, and only the last one publishes anything. -/
theorem brief_step (E : Engine σ) (registry : Registry) (session : Radix) (cancelled : Bool)
    (r : Request) (phase : Phase) (s : σ) :
    let taken := step E registry session cancelled r phase s
    Brief (published taken.effects) ∧
      (taken.phase ≠ .finished ∨ phase = .finished → published taken.effects = []) := by
  cases phase with
  | preparing op =>
      simp only [step, prepare]
      rcases Prepared.ofText registry session r.text with e | p
      · refine ⟨brief_singleton rfl, fun h => ?_⟩
        rcases h with h | h
        · exact absurd rfl h
        · cases h
      · exact ⟨brief_nil, fun _ => rfl⟩
  | evaluating op p =>
      have hlast : ∀ effects : List Effect, Phase.finished ≠ .finished ∨
          Phase.evaluating op p = .finished → published effects = [] := fun effects h => by
        rcases h with h | h
        · exact absurd rfl h
        · cases h
      simp only [step, evaluate]
      rcases (E.attempt p.expression op cancelled s).reply with text | e | _
      · simp only [published_notes]
        exact ⟨brief_conclude E r op p text _, hlast _⟩
      · simp only [published_notes]
        unfold afterError
        split
        · exact ⟨brief_singleton rfl, hlast _⟩
        · split
          · exact ⟨brief_nil, fun _ => rfl⟩
          · exact ⟨brief_singleton rfl, hlast _⟩
      · simp only [published_notes]
        exact ⟨brief_singleton rfl, hlast _⟩
  | finished => exact ⟨brief_nil, fun _ => rfl⟩

/-- A course has published little, and nothing before its end. -/
structure Course.Brief (k : Course) : Prop where
  events : Calculation.Brief k.events
  unfinished : k.phase ≠ .finished → k.events = []

theorem brief_next (r : Request) (k : Course) (m : Moment σ) (h : k.Brief) :
    (k.next r m).Brief := by
  rcases brief_step m.engine.recorded m.registry m.session m.cancelled r k.phase
    (m.state, k.calls) with ⟨hbrief, hlast⟩
  simp only [Course.next]
  by_cases hphase : k.phase = .finished
  · rw [hlast (.inr hphase), List.append_nil]
    refine ⟨h.events, fun hne => absurd ?_ hne⟩
    simp only [hphase, step]
  · rw [h.unfinished hphase, List.nil_append]
    exact ⟨hbrief, fun hne => hlast (.inl hne)⟩

/-- Whatever happens between its steps, a course publishes little. -/
theorem brief_foldl (r : Request) (moments : List (Moment σ)) (k : Course) (h : k.Brief) :
    (moments.foldl (Course.next r) k).Brief := by
  induction moments generalizing k with
  | nil => exact h
  | cons m moments ih => exact ih (k.next r m) (brief_next r k m h)

theorem brief_start (phase : Phase) : (⟨phase, [], []⟩ : Course).Brief := ⟨brief_nil, fun _ => rfl⟩

end Calculation

theorem Event.countP_stirs {es : List Event} (h : ∀ e ∈ es, e.stirs = false) :
    es.countP stirs = 0 :=
  List.countP_eq_zero.mpr fun e he => by
    rw [h e he]
    exact Bool.false_ne_true

namespace Bus

variable {L : Type} [DecidableEq L]

/-- An action puts the event that it publishes on its way. -/
@[simp, grind =] theorem waiting_act (b : Bus L) (a : Action L) :
    (b.act a).waiting = b.waiting ++ a.event?.toList := by
  cases a with
  | fire | fireIn | publish => exact List.map_append
  | _ => exact (List.append_nil _).symm

end Bus

namespace Session

/-- Nothing on its way stirs the session. -/
def Calm (b : Bus Listener) : Prop := ∀ e ∈ b.waiting, e.stirs = false

/-- What comes of serving listeners with an event: the recorder has been served a number
    of times, and a limit is kept by the events that were published and the jobs that
    were queued. -/
structure Follows (heard limit : Nat) (r r' : Bus.Run Listener Session) : Prop where
  listeners : r'.bus.listeners = r.bus.listeners
  heard : r'.served.countP (·.1 == .recorder) = r.served.countP (·.1 == .recorder) + heard
  raised : ∃ fresh jobs, r'.bus.waiting = r.bus.waiting ++ fresh ∧
    r'.world.jobs = r.world.jobs ++ jobs ∧ fresh.length + 2 * jobs.length ≤ limit ∧
    ∀ e ∈ fresh, e.stirs = false

/-- What the recorder has been served with, what is on its way, what can follow from
    that, and what can follow from the jobs. -/
def load (r : Bus.Run Listener Session) : Nat :=
  r.served.countP (·.1 == .recorder) + r.bus.waiting.length +
    3 * r.bus.waiting.countP Event.stirs + 2 * r.world.jobs.length

section Deliveries

variable {heard limit : Nat} {r r' r'' : Bus.Run Listener Session} {d : Delivery}

@[simp, grind =] theorem waiting_actions (b : Bus Listener) (actions : List Action) :
    (actions.foldl Bus.act b).waiting = b.waiting ++ fired actions := by
  induction actions generalizing b with
  | nil => exact (List.append_nil _).symm
  | cons a actions ih =>
      rw [List.foldl_cons, ih, Bus.waiting_act, List.append_assoc, fired, fired,
        List.filterMap_cons]
      rcases a.event? with _ | e <;> rfl

theorem listeners_actions (b : Bus Listener) {actions : List Action}
    (h : ∀ a ∈ actions, keepsListeners a = true) :
    (actions.foldl Bus.act b).listeners = b.listeners := by
  induction actions generalizing b with
  | nil => rfl
  | cons a actions ih =>
      rcases List.forall_mem_cons.mp h with ⟨ha, hactions⟩
      have hact : (b.act a).listeners = b.listeners := by
        cases a with
        | subscribe | unsubscribe =>
            exact absurd ha (by simp only [keepsListeners, Bool.false_eq_true, not_false_eq_true])
        | _ => rfl
      exact (ih (b.act a) hactions).trans hact

theorem Follows.refl (r : Bus.Run Listener Session) : Follows 0 0 r r :=
  ⟨rfl, rfl, [], [], (List.append_nil _).symm, (List.append_nil _).symm, Nat.zero_le 0,
    fun _ he => absurd he List.not_mem_nil⟩

theorem Follows.trans {heard' limit' : Nat} (h : Follows heard limit r r')
    (h' : Follows heard' limit' r' r'') : Follows (heard + heard') (limit + limit') r r'' := by
  rcases h with ⟨hlisteners, hheard, fresh, jobs, hfresh, hjobs, hlimit, hcalm⟩
  rcases h' with ⟨hlisteners', hheard', fresh', jobs', hfresh', hjobs', hlimit', hcalm'⟩
  refine ⟨hlisteners'.trans hlisteners, by rw [hheard', hheard, Nat.add_assoc],
    fresh ++ fresh', jobs ++ jobs', ?_, ?_, ?_, ?_⟩
  · rw [hfresh', hfresh, List.append_assoc]
  · rw [hjobs', hjobs, List.append_assoc]
  · rw [List.length_append, List.length_append]
    omega
  · exact List.forall_mem_append.mpr ⟨hcalm, hcalm'⟩

/-- Nobody but the session does anything about an event. -/
theorem idle_of_ne {l : Listener} (h : l ≠ .session) (b : Bus Listener) (s : Session)
    (d : Delivery) : (behaviour b s l d).1.actions = [] ∧ (behaviour b s l d).2 = s := by
  cases l with
  | session => exact absurd rfl h
  | recorder | faulty => exact ⟨rfl, rfl⟩

/-- Only the session has anything follow from being served. -/
theorem follows_serve (r : Bus.Run Listener Session) (d : Delivery) (l : Listener) :
    Follows ([l].count .recorder) ([l].count .session * if d.event.stirs then 3 else 0) r
      (r.serve behaviour d l) := by
  rcases Bus.serve_run behaviour d r l with ⟨hbus, hserved, hworld⟩
  have hheard : (r.serve behaviour d l).served.countP (·.1 == .recorder) =
      r.served.countP (·.1 == .recorder) + [l].count .recorder := by
    rw [hserved, List.countP_append]
    rfl
  by_cases hl : l = .session
  · subst hl
    rcases modest_react r.world (r.bus.lastId + 1) d with
      ⟨⟨started, hjobs, hlimit⟩, hcalm, hlisteners⟩
    refine ⟨?_, hheard, fired (r.world.react (r.bus.lastId + 1) d).2,
      (started.map fun x => .calculation x.1 x.2).toList, ?_, ?_, ?_, hcalm⟩
    · rw [hbus]
      exact listeners_actions r.bus hlisteners
    · rw [hbus]
      exact waiting_actions r.bus _
    · rw [hworld]
      exact hjobs
    · rw [show [Listener.session].count .session = 1 from rfl, Nat.one_mul]
      rcases started with _ | x <;> exact hlimit
  · rcases idle_of_ne hl r.bus r.world d with ⟨hactions, hsame⟩
    rw [hactions, List.foldl_nil] at hbus
    rw [hsame] at hworld
    exact ⟨by rw [hbus], hheard, [], [], by rw [hbus, List.append_nil],
      by rw [hworld, List.append_nil], Nat.zero_le _, fun _ he => absurd he List.not_mem_nil⟩

theorem follows_deliver (ls : List Listener) (r : Bus.Run Listener Session) (d : Delivery) :
    Follows (ls.count .recorder) (ls.count .session * if d.event.stirs then 3 else 0) r
      (ls.foldl (Bus.Run.serve behaviour d) r) := by
  induction ls generalizing r with
  | nil =>
      rw [List.count_nil, List.count_nil, Nat.zero_mul]
      exact .refl r
  | cons l ls ih =>
      have hboth := (follows_serve r d l).trans (ih (r.serve behaviour d l))
      rw [← Nat.add_mul, ← List.count_append, ← List.count_append] at hboth
      exact hboth

/-- What listeners do is paid for by the event that they are served with, if neither the
    session nor the recorder is listed twice. -/
theorem load_deliverNext (r : Bus.Run Listener Session)
    (hsession : r.bus.listeners.count .session ≤ 1)
    (hrecorder : r.bus.listeners.count .recorder ≤ 1) :
    (r.deliverNext behaviour).bus.listeners = r.bus.listeners ∧
      load (r.deliverNext behaviour) ≤ load r := by
  unfold Bus.Run.deliverNext
  rcases hqueue : r.bus.queue with _ | ⟨d, rest⟩
  · exact ⟨rfl, Nat.le_refl _⟩
  · rcases follows_deliver r.bus.listeners { r with bus := { r.bus with queue := rest } } d with
      ⟨hlisteners, hheard, fresh, jobs, hfresh, hjobs, hlimit, hcalm⟩
    refine ⟨hlisteners, ?_⟩
    have hwaiting : r.bus.waiting = d.event :: rest.map (·.event) := by
      rw [Bus.waiting, hqueue, List.map_cons]
    have hrest : Bus.waiting { r.bus with queue := rest } = rest.map (·.event) := rfl
    have hcost : r.bus.listeners.count .session * (if d.event.stirs then 3 else 0) ≤
        3 * (if d.event.stirs then 1 else 0) := by
      cases d.event.stirs with
      | false => exact Nat.le_of_eq (Nat.mul_zero _)
      | true => simp only [if_true]; omega
    rw [hrest] at hfresh
    unfold load
    simp only [Bus.Run.deliver, hheard, hfresh, hjobs, hwaiting, List.length_append,
      List.length_cons, List.countP_append, List.countP_cons, Event.countP_stirs hcalm] at hlimit ⊢
    omega

theorem load_deliverAll (ds : List Delivery) (r : Bus.Run Listener Session)
    (hsession : r.bus.listeners.count .session ≤ 1)
    (hrecorder : r.bus.listeners.count .recorder ≤ 1) :
    (ds.foldl (fun r _ => r.deliverNext behaviour) r).bus.listeners = r.bus.listeners ∧
      load (ds.foldl (fun r _ => r.deliverNext behaviour) r) ≤ load r := by
  induction ds generalizing r with
  | nil => exact ⟨rfl, Nat.le_refl _⟩
  | cons d ds ih =>
      rcases load_deliverNext r hsession hrecorder with ⟨hlisteners, hload⟩
      rcases ih (r.deliverNext behaviour) (hlisteners ▸ hsession) (hlisteners ▸ hrecorder) with
        ⟨hlisteners', hload'⟩
      exact ⟨hlisteners'.trans hlisteners, Nat.le_trans hload' hload⟩

/-- What is on its way once everything has been delivered that was, does not stir the
    session. -/
theorem calm_deliverAll (ds : List Delivery) (late : List Event) (r : Bus.Run Listener Session)
    (hwaiting : r.bus.waiting = ds.map (·.event) ++ late) (hlate : ∀ e ∈ late, e.stirs = false) :
    Calm (ds.foldl (fun r _ => r.deliverNext behaviour) r).bus := by
  induction ds generalizing r late with
  | nil =>
      intro e he
      rw [List.foldl_nil, hwaiting] at he
      exact hlate e he
  | cons d ds ih =>
      rcases hqueue : r.bus.queue with _ | ⟨next, rest⟩
      · rw [Bus.waiting, hqueue] at hwaiting
        cases hwaiting
      · rw [Bus.waiting, hqueue, List.map_cons, List.map_cons, List.cons_append] at hwaiting
        have hrest : rest.map (·.event) = ds.map (·.event) ++ late := (List.cons.inj hwaiting).2
        rcases follows_deliver r.bus.listeners { r with bus := { r.bus with queue := rest } } next
          with ⟨-, -, fresh, -, hfresh, -, -, hcalm⟩
        refine ih (late ++ fresh) (r.deliverNext behaviour) ?_
          (List.forall_mem_append.mpr ⟨hlate, hcalm⟩)
        rw [← List.append_assoc, ← hrest]
        unfold Bus.Run.deliverNext
        rw [hqueue]
        exact hfresh

/-- Nothing comes of an event that does not stir the session. -/
theorem deliver_of_calm (ls : List Listener) (r : Bus.Run Listener Session)
    (h : d.event.stirs = false) :
    (ls.foldl (Bus.Run.serve behaviour d) r).bus = r.bus ∧
      (ls.foldl (Bus.Run.serve behaviour d) r).world = r.world := by
  induction ls generalizing r with
  | nil => exact ⟨rfl, rfl⟩
  | cons l ls ih =>
      rcases Bus.serve_run behaviour d r l with ⟨hbus, -, hworld⟩
      have hidle : (behaviour r.bus r.world l d).1.actions = [] ∧
          (behaviour r.bus r.world l d).2 = r.world := by
        by_cases hl : l = .session
        · simp only [hl, behaviour, react_of_calm r.world (r.bus.lastId + 1) h, and_self]
        · exact idle_of_ne hl r.bus r.world d
      rw [hidle.1, List.foldl_nil] at hbus
      rw [hidle.2] at hworld
      rcases ih (r.serve behaviour d l) with ⟨hbus', hworld'⟩
      exact ⟨hbus'.trans hbus, hworld'.trans hworld⟩

/-- Delivering what does not stir the session only empties the queue. -/
theorem deliverQueued_of_calm (r : Bus.Run Listener Session) (h : Calm r.bus) :
    (r.deliverQueued behaviour).bus = { r.bus with queue := [] } ∧
      (r.deliverQueued behaviour).world = r.world := by
  unfold Bus.Run.deliverQueued
  generalize hqueue : r.bus.queue = queue
  induction queue generalizing r with
  | nil => exact ⟨by rw [List.foldl_nil, ← hqueue], rfl⟩
  | cons d queue ih =>
      have hevents : r.bus.waiting = d.event :: queue.map (·.event) := by
        rw [Bus.waiting, hqueue, List.map_cons]
      have hcalm := h
      rw [Calm, hevents] at hcalm
      rcases List.forall_mem_cons.mp hcalm with ⟨hd, hrest⟩
      have hnext : (r.deliverNext behaviour).bus = { r.bus with queue := queue } ∧
          (r.deliverNext behaviour).world = r.world := by
        unfold Bus.Run.deliverNext
        rw [hqueue]
        exact deliver_of_calm r.bus.listeners { r with bus := { r.bus with queue := queue } } hd
      rcases ih (r.deliverNext behaviour) (by rw [hnext.1]; exact hrest) (by rw [hnext.1]) with
        ⟨hbus, hworld⟩
      exact ⟨by rw [List.foldl_cons, hbus, hnext.1], by rw [List.foldl_cons, hworld, hnext.2]⟩

end Deliveries

end Session

namespace Calculator

open Calculation

variable {σ : Type}

section Worker

variable {c c' c'' : Calculator σ}

/-- What the worker does not touch. -/
structure Unheard (c c' : Calculator σ) : Prop where
  listeners : c'.bus.listeners = c.bus.listeners
  seen : c'.seen = c.seen

theorem Unheard.trans (h : Unheard c c') (h' : Unheard c' c'') : Unheard c c'' :=
  ⟨h'.listeners.trans h.listeners, h'.seen.trans h.seen⟩

theorem unheard_fireIn (c : Calculator σ) (sequence : Nat) (e : Event) :
    Unheard c (c.act worker (.fireIn sequence e)) := ⟨rfl, rfl⟩

theorem unheard_notes (c : Calculator σ) (records : List Journal.Record) :
    Unheard c (records.foldl (note · worker) c) := by
  induction records generalizing c with
  | nil => exact ⟨rfl, rfl⟩
  | cons record records ih =>
      have hnote : Unheard c (c.note worker record) := ⟨rfl, rfl⟩
      exact hnote.trans (ih (c.note worker record))

theorem unheard_applyAll (r : Request) (effects : List Effect) (c : Calculator σ) :
    Unheard c (effects.foldl (apply r) c) := by
  induction effects generalizing c with
  | nil => exact ⟨rfl, rfl⟩
  | cons effect effects ih =>
      have heffect : Unheard c (c.apply r effect) := by
        cases effect with
        | checkPreferences =>
            have hcheck : Unheard c { c with session := c.session.checkPreferences.1 } := ⟨rfl, rfl⟩
            exact hcheck.trans (unheard_notes _ _)
        | note record => exact ⟨rfl, rfl⟩
        | publish e => exact unheard_fireIn c r.sequence e
      exact heffect.trans (ih (c.apply r effect))

theorem unheard_advance (engine : Registry → Engine σ) (r : Request) (token steps : Nat)
    (phase : Phase) (c : Calculator σ) : Unheard c (advance engine r token steps phase c) := by
  induction steps generalizing phase c with
  | zero => exact ⟨rfl, rfl⟩
  | succ steps ih =>
      unfold advance
      split
      · exact ⟨rfl, rfl⟩
      · have hstep : Unheard c (c.step engine r token phase).2 := by
          have hengine : ∀ s : σ, Unheard c { c with engineState := s } := fun _ => ⟨rfl, rfl⟩
          exact (hengine _).trans (unheard_applyAll r _ _)
        exact hstep.trans (ih _ _)

/-- A job has been done, or the worker stands before the rest of it: what is published of
    it does not stir the session and is paid for by the job. -/
structure Wrought (c c' : Calculator σ) : Prop where
  unheard : Unheard c c'
  jobs : c'.session.jobs = c.session.jobs
  raised : ∃ fresh, c'.bus.waiting = c.bus.waiting ++ fresh ∧
    fresh.length + 2 * c'.standing.toList.length ≤ 2 ∧ ∀ e ∈ fresh, e.stirs = false

/-- What a calculation publishes from any phase on is the end of a course. -/
theorem wrought_proceed (engine : Registry → Engine σ) (c : Calculator σ) (st : Standing)
    (hstanding : c.standing = none) : Wrought c (c.proceed engine st) := by
  rcases advance_carries engine st.request st.token st.phase.rank c ⟨st.phase, [], []⟩
    (Nat.le_refl _) with ⟨hspares, moments, -, ⟨fresh, hevents, hannounced⟩, hend⟩
  have hcourse := brief_foldl st.request moments ⟨st.phase, [], []⟩ (brief_start st.phase)
  rw [List.nil_append] at hevents
  refine ⟨unheard_advance engine st.request st.token st.phase.rank st.phase c, hspares.jobs,
    fresh, ?_, ?_, hevents ▸ hcourse.events.calm⟩
  · rw [Bus.waiting_announced, Bus.waiting_announced]
    simp only [proceed, hannounced, List.map_append, List.map_map]
    exact congrArg _ (List.map_id fresh)
  · have hfew := hcourse.events.few
    rw [hevents] at hfew
    rcases hend with ⟨-, hsame⟩ | ⟨hphase, hsame⟩
    · rw [proceed, hsame, hstanding]
      exact hfew
    · have hnone := hcourse.unfinished hphase
      rw [hevents] at hnone
      rw [proceed, hsame, hnone]
      exact Nat.le_refl 2

/-- A conversion publishes that it has been started, and how it ended. -/
theorem wrought_conversion (c : Calculator σ) (sequence : Nat) (conversion : Conversion)
    (hstanding : c.standing = none) : Wrought c (c.performConversion sequence conversion) := by
  have hboth : ∀ e : Event, e.stirs = false → ∀ c' : Calculator σ,
      c'.bus = (c.act worker (.fireIn sequence (.conversionStarted conversion))).bus →
      c'.seen = c.seen → c'.session = c.session → c'.standing = none →
      Wrought c (c'.act worker (.fireIn sequence e)) := fun e he c' hbus hseen hsession hnone => by
    have hunheard : Unheard c c' := ⟨(congrArg Bus.listeners hbus).trans rfl, hseen⟩
    refine ⟨hunheard.trans (unheard_fireIn c' sequence e), congrArg Session.jobs hsession,
      [.conversionStarted conversion, e], ?_, ?_,
      List.forall_mem_cons.mpr ⟨rfl, List.forall_mem_singleton.mpr he⟩⟩
    · rw [Bus.waiting_announced, announced_fireIn, hbus, announced_fireIn, Bus.waiting_announced,
        List.append_assoc, List.map_append]
      rfl
    · show 2 + 2 * c'.standing.toList.length ≤ 2
      rw [hnone]
      exact Nat.le_refl 2
  unfold performConversion
  split
  · exact hboth _ rfl _ rfl rfl rfl hstanding
  · exact hboth _ rfl _ rfl rfl rfl hstanding

theorem wrought_perform (engine : Registry → Engine σ) (c : Calculator σ) (job : Session.Job)
    (hstanding : c.standing = none) : Wrought c (c.perform engine job) := by
  cases job with
  | calculation r token => exact wrought_proceed engine c ⟨r, token, start r⟩ hstanding
  | conversion sequence conversion => exact wrought_conversion c sequence conversion hstanding

/-- What is kept when the worker goes on with a calculation and when it takes a job, is
    kept whatever it does at a moment. -/
theorem work_keeps {P : Calculator σ → Prop} (engine : Registry → Engine σ)
    (hstanding : ∀ c c' st, c.standing = some st → Wrought { c with standing := none } c' →
      P c → P c')
    (hjob : ∀ c c' job rest, c.standing = none → c.session.jobs = job :: rest →
      Wrought { c with session := { c.session with jobs := rest } } c' → P c → P c')
    (h : P c) : P (c.work engine) := by
  have hresume : P (c.resume engine) := by
    unfold resume
    rcases hst : c.standing with _ | st
    · exact h
    · exact hstanding c _ st hst (wrought_proceed engine { c with standing := none } st rfl) h
  have hnext : ∀ c : Calculator σ, P c → P (c.workNext engine) := fun c h => by
    unfold workNext
    split
    · next job rest hst hjobs =>
        exact hjob c _ job rest hst hjobs (wrought_perform engine _ job hst) h
    · exact h
  unfold work
  generalize c.session.jobs = jobs
  generalize c.resume engine = c at hresume
  induction jobs generalizing c with
  | nil => exact hresume
  | cons job jobs ih => exact ih _ (hnext c hresume)

end Worker

section Load

variable {c c' : Calculator σ}

/-- What the recorder has seen, what is on its way, what can follow from that, and what
    can follow from the jobs. -/
def load (c : Calculator σ) : Nat :=
  c.seen.length + c.bus.waiting.length + 3 * c.bus.waiting.countP Event.stirs +
    2 * (c.session.jobs.length + c.standing.toList.length)

/-- Events that come from outside, and everything else going on. -/
inductive Move (σ : Type) where
  | fire (e : Event)
  | fireIn (sequence : Nat) (e : Event)
  | deliver
  | work (engine : Registry → Engine σ)

/-- Whether an event comes from outside. -/
def Move.isEvent : Move σ → Bool
  | .fire _ | .fireIn _ _ => true
  | .deliver | .work _ => false

/-- The calculator after a move. -/
def moved (c : Calculator σ) : Move σ → Calculator σ
  | .fire e => (c.fire e).2
  | .fireIn sequence e => (c.fireIn sequence e).2
  | .deliver => c.deliver
  | .work engine => c.work engine

/-- A job pays for what is published of it. -/
theorem load_wrought (h : Wrought c c') (hstanding : c.standing = none) :
    c'.load ≤ c.load + 2 := by
  rcases h with ⟨hunheard, hjobs, fresh, hfresh, hlimit, hcalm⟩
  unfold load
  rw [hunheard.seen, hjobs, hfresh, hstanding, List.length_append, List.countP_append,
    Event.countP_stirs hcalm, Option.toList_none, List.length_nil]
  omega

theorem load_work (engine : Registry → Engine σ) (c : Calculator σ) :
    (c.work engine).bus.listeners = c.bus.listeners ∧ (c.work engine).load ≤ c.load := by
  refine work_keeps (P := fun x => x.bus.listeners = c.bus.listeners ∧ x.load ≤ c.load) engine
    (fun x x' st hst hwrought h => ?_) (fun x x' job rest hst hjobs hwrought h => ?_)
    ⟨rfl, Nat.le_refl _⟩
  · have hload := load_wrought hwrought rfl
    refine ⟨hwrought.unheard.listeners.trans h.1, Nat.le_trans hload (Nat.le_trans ?_ h.2)⟩
    simp only [load, hst, Option.toList_none, Option.toList_some, List.length_nil,
      List.length_singleton]
    omega
  · have hload := load_wrought hwrought hst
    refine ⟨hwrought.unheard.listeners.trans h.1, Nat.le_trans hload (Nat.le_trans ?_ h.2)⟩
    simp only [load, hjobs, List.length_cons]
    omega

theorem load_deliver (c : Calculator σ) (hsession : c.bus.listeners.count .session ≤ 1)
    (hrecorder : c.bus.listeners.count .recorder ≤ 1) :
    c.deliver.bus.listeners = c.bus.listeners ∧ c.deliver.load ≤ c.load := by
  rcases Session.load_deliverAll c.bus.queue ⟨c.bus, c.session, [], []⟩ hsession hrecorder with
    ⟨hlisteners, hload⟩
  refine ⟨hlisteners, ?_⟩
  simp only [Session.load, List.countP_eq_length_filter, List.filter_nil, List.length_nil] at hload
  simp only [load, deliver, Bus.Run.deliverQueued, List.length_append, List.length_map,
    List.countP_eq_length_filter]
  omega

/-- An event from outside is counted with the three that can follow from it. -/
theorem load_act (c : Calculator σ) (actor : Journal.Actor) {a : Session.Action} {e : Event}
    (h : a.event? = some e) (hlistener : Session.keepsListeners a = true) :
    (act actor c a).bus.listeners = c.bus.listeners ∧ (act actor c a).load ≤ c.load + 4 := by
  have hact : (act actor c a).bus = c.bus.act a ∧ (act actor c a).seen = c.seen ∧
      (act actor c a).session = c.session ∧ (act actor c a).standing = c.standing := by
    unfold act
    split <;> exact ⟨rfl, rfl, rfl, rfl⟩
  rcases hact with ⟨hbus, hseen, hsession, hstanding⟩
  refine ⟨?_, ?_⟩
  · rw [hbus]
    exact Session.listeners_actions c.bus (List.forall_mem_singleton.mpr hlistener)
  · have hstirs := Bool.toNat_le e.stirs
    unfold load
    rw [hbus, hseen, hsession, hstanding, Bus.waiting_act, h, List.length_append,
      List.countP_append, Option.toList_some, List.length_singleton, List.countP_singleton]
    split <;> omega

/-- Every move raises the load by no more than the events that come from outside. -/
theorem load_moves (moves : List (Move σ)) (c : Calculator σ)
    (hsession : c.bus.listeners.count .session ≤ 1)
    (hrecorder : c.bus.listeners.count .recorder ≤ 1) :
    (moves.foldl moved c).load ≤ c.load + 4 * moves.countP Move.isEvent := by
  induction moves generalizing c with
  | nil => exact Nat.le_refl _
  | cons move moves ih =>
      have hmove : (c.moved move).bus.listeners = c.bus.listeners ∧
          (c.moved move).load ≤ c.load + if move.isEvent then 4 else 0 := by
        cases move with
        | fire e => exact load_act c .caller rfl rfl
        | fireIn sequence e => exact load_act c .caller rfl rfl
        | deliver => exact load_deliver c hsession hrecorder
        | work engine => exact load_work engine c
      rcases hmove with ⟨hlisteners, hload⟩
      have hrest := ih (c.moved move) (hlisteners ▸ hsession) (hlisteners ▸ hrecorder)
      rw [List.foldl_cons, List.countP_cons]
      cases hkind : move.isEvent with
      | false =>
          rw [hkind, if_neg Bool.false_ne_true] at hload
          rw [if_neg Bool.false_ne_true]
          omega
      | true =>
          rw [hkind, if_pos rfl] at hload
          rw [if_pos rfl]
          omega

end Load

section Rest

variable {c : Calculator σ}

/-- The worker does all it can, and what is queued by then is delivered. -/
def round (engine : Registry → Engine σ) (c : Calculator σ) : Calculator σ :=
  (c.work engine).deliver

/-- No more than a number of jobs are left, unless the worker has to wait. -/
def Leaves (engine : Registry → Engine σ) (n : Nat) (c : Calculator σ) : Prop :=
  (c.standing = none ∧ c.session.jobs.length ≤ n) ∨
    ∃ st, c.standing = some st ∧ c.mustWait engine st.phase = true

theorem isQuiet_of_leaves {engine : Registry → Engine σ} (hqueue : c.bus.queue = [])
    (h : c.Leaves engine 0) : c.isQuiet engine = true := by
  unfold isQuiet
  rw [hqueue]
  rcases h with ⟨hst, hjobs⟩ | ⟨st, hst, hwait⟩
  · rw [hst, List.eq_nil_of_length_eq_zero (Nat.le_zero.mp hjobs)]
    rfl
  · rw [hst]
    exact hwait

theorem calm_work (engine : Registry → Engine σ) (h : Session.Calm c.bus) :
    Session.Calm (c.work engine).bus := by
  have hgrown : ∀ x x' : Calculator σ, Wrought x x' → Session.Calm x.bus →
      Session.Calm x'.bus := fun x x' hwrought hx => by
    rcases hwrought with ⟨-, -, fresh, hfresh, -, hcalm⟩
    unfold Session.Calm
    rw [hfresh]
    exact List.forall_mem_append.mpr ⟨hx, hcalm⟩
  exact work_keeps (P := fun x => Session.Calm x.bus) engine
    (fun x x' _ _ hwrought hx => hgrown _ x' hwrought hx)
    (fun x x' _ _ _ _ hwrought hx => hgrown _ x' hwrought hx) h

theorem calm_deliver (c : Calculator σ) : Session.Calm c.deliver.bus :=
  Session.calm_deliverAll c.bus.queue [] ⟨c.bus, c.session, [], []⟩ (List.append_nil _).symm
    fun _ he => absurd he List.not_mem_nil

theorem deliver_calm (h : Session.Calm c.bus) :
    c.deliver.bus = { c.bus with queue := [] } ∧ c.deliver.session = c.session :=
  Session.deliverQueued_of_calm ⟨c.bus, c.session, [], []⟩ h

theorem deliver_empty (h : c.bus.queue = []) : c.deliver = c := by
  rcases c with ⟨session, bus, engineState, standing, seen, journal⟩
  simp only at h
  unfold deliver Bus.Run.deliverQueued
  simp only [h, List.foldl_nil, List.filter_nil, List.map_nil, List.append_nil]

theorem waits_advance (engine : Registry → Engine σ) (r : Request) (token steps : Nat)
    (phase : Phase) (c : Calculator σ) (h : c.standing = none) :
    let c' := advance engine r token steps phase c
    c'.standing = none ∨ ∃ st, c'.standing = some st ∧ c'.mustWait engine st.phase = true := by
  induction steps generalizing phase c with
  | zero => exact .inl h
  | succ steps ih =>
      unfold advance
      by_cases hwait : c.mustWait engine phase = true
      · rw [if_pos hwait]
        exact .inr ⟨⟨r, token, phase⟩, rfl, hwait⟩
      · rw [if_neg hwait]
        rcases step_carries engine r token c ⟨phase, [], []⟩ with ⟨-, hstanding, -⟩
        exact ih _ _ (hstanding.trans h)

theorem leaves_proceed (engine : Registry → Engine σ) (c : Calculator σ) (st : Standing)
    (h : c.standing = none) : (c.proceed engine st).Leaves engine c.session.jobs.length := by
  have hjobs := (wrought_proceed engine c st h).jobs
  rcases waits_advance engine st.request st.token st.phase.rank st.phase c h with hnone | hwait
  · exact .inl ⟨hnone, Nat.le_of_eq (congrArg List.length hjobs)⟩
  · exact .inr hwait

theorem leaves_perform (engine : Registry → Engine σ) (c : Calculator σ) (job : Session.Job)
    (h : c.standing = none) : (c.perform engine job).Leaves engine c.session.jobs.length := by
  cases job with
  | calculation r token => exact leaves_proceed engine c ⟨r, token, start r⟩ h
  | conversion sequence conversion =>
      refine .inl ⟨?_, Nat.le_of_eq (congrArg List.length
        (wrought_conversion c sequence conversion h).jobs)⟩
      show (c.performConversion sequence conversion).standing = none
      unfold performConversion
      split <;> exact h

/-- The worker takes a job, unless it has to wait. -/
theorem leaves_workNext {engine : Registry → Engine σ} {n : Nat} (h : c.Leaves engine (n + 1)) :
    (c.workNext engine).Leaves engine n := by
  rcases h with ⟨hst, hjobs⟩ | ⟨st, hst, hwait⟩
  · rcases hqueue : c.session.jobs with _ | ⟨job, rest⟩
    · refine .inl ?_
      simp only [workNext, hst, hqueue, List.length_nil, Nat.zero_le, and_self]
    · rw [hqueue] at hjobs
      have hperform := leaves_perform engine
        { c with session := { c.session with jobs := rest } } job hst
      have hnext : c.workNext engine =
          { c with session := { c.session with jobs := rest } }.perform engine job := by
        simp only [workNext, hst, hqueue]
      rw [hnext]
      exact hperform.imp (fun h => ⟨h.1, Nat.le_trans h.2 (Nat.le_of_succ_le_succ hjobs)⟩) id
  · have hsame : c.workNext engine = c := by
      simp only [workNext, hst]
    rw [hsame]
    exact .inr ⟨st, hst, hwait⟩

/-- When the worker has done what it can, it has to wait or nothing is left. -/
theorem leaves_work (engine : Registry → Engine σ) (c : Calculator σ) :
    (c.work engine).Leaves engine 0 := by
  have hresume : (c.resume engine).Leaves engine c.session.jobs.length := by
    unfold resume
    rcases hst : c.standing with _ | st
    · exact .inl ⟨hst, Nat.le_refl _⟩
    · exact leaves_proceed engine { c with standing := none } st rfl
  unfold work
  generalize c.session.jobs = jobs at hresume
  generalize c.resume engine = x at hresume
  induction jobs generalizing x with
  | nil => exact hresume
  | cons job jobs ih => exact ih _ (leaves_workNext hresume)

/-- A worker that has to wait, or for which nothing is left, does nothing. -/
theorem work_of_leaves {engine : Registry → Engine σ} (h : c.Leaves engine 0) :
    c.work engine = c := by
  rcases h with ⟨hst, hjobs⟩ | ⟨st, hst, hwait⟩
  · unfold work resume
    rw [List.eq_nil_of_length_eq_zero (Nat.le_zero.mp hjobs), hst]
    rfl
  · have hresume : c.resume engine = c := by
      rcases st with ⟨r, token, op | ⟨op, p⟩ | _⟩
      · exact absurd hwait Bool.false_ne_true
      · -- The worker gets no further than to look whether it has to wait.
        rcases c with ⟨session, bus, engineState, standing, seen, journal⟩
        simp only at hst
        subst hst
        cases op <;> exact if_pos hwait
      · exact absurd hwait Bool.false_ne_true
    have hnext : c.workNext engine = c := by
      simp only [workNext, hst]
    unfold work
    rw [hresume]
    induction c.session.jobs with
    | nil => rfl
    | cons job jobs ih => rw [List.foldl_cons, hnext, ih]

/-- Once the worker has done what it can and nothing on its way stirs the session, all
    that is left is to deliver. -/
theorem deliver_last {engine : Registry → Engine σ} (hcalm : Session.Calm c.bus)
    (h : c.Leaves engine 0) :
    c.deliver.bus.queue = [] ∧ c.deliver.isQuiet engine = true ∧
      c.deliver.work engine = c.deliver := by
  rcases deliver_calm hcalm with ⟨hbus, hsession⟩
  have hqueue : c.deliver.bus.queue = [] := by rw [hbus]
  have hwait : ∀ phase, c.deliver.mustWait engine phase = c.mustWait engine phase :=
    fun phase => by
      cases phase with
      | evaluating op p => simp only [mustWait, hsession]; rfl
      | preparing | finished => rfl
  have hleft : c.deliver.Leaves engine 0 := by
    unfold Leaves
    simp only [hwait, hsession]
    exact h
  exact ⟨hqueue, isQuiet_of_leaves hqueue hleft, work_of_leaves hleft⟩

/-- After two rounds everything is quiet, and a further one changes nothing. -/
theorem round_round (engine : Registry → Engine σ) (c : Calculator σ) :
    ((c.round engine).round engine).isQuiet engine = true ∧
      ((c.round engine).round engine).round engine = (c.round engine).round engine := by
  have hcalm := calm_work engine (calm_deliver (c.work engine))
  rcases deliver_last hcalm (leaves_work engine (c.round engine)) with ⟨hqueue, hquiet, hwork⟩
  refine ⟨hquiet, ?_⟩
  exact (congrArg deliver hwork).trans (deliver_empty hqueue)

/-- Letting everything settle leaves nothing to do. -/
@[simp] theorem isQuiet_settle (engine : Registry → Engine σ) (c : Calculator σ) :
    (c.settle engine).isQuiet engine = true := by
  have hstop : ∀ (rounds : Nat) (x : Calculator σ), x.isQuiet engine = true →
      (settleFor engine rounds x).isQuiet engine = true := fun rounds x hx => by
    cases rounds with
    | zero => exact hx
    | succ rounds =>
        rw [settleFor, if_pos hx]
        exact hx
  rcases deliver_last (calm_work engine (calm_deliver c)) (leaves_work engine c.deliver) with
    ⟨-, hquiet, hwork⟩
  unfold settle rounds settleFor
  split
  · next h => exact h
  · unfold settleFor
    split
    · next h => exact h
    · rw [hwork]
      exact hstop 2 _ hquiet

end Rest

/-- The reactions of a calculator die out. At most one calculation is started because of
    an event, and whatever the engine does and whatever happens meanwhile, no more than
    three events are published in consequence, those of the calculation included; and the
    session does nothing about any of them, as it may stand then. So over any deliveries
    and any work, with whatever engines, of all that a recorder has seen and is yet to see
    there are at most three events to each that came from outside, and at most two to each
    job that was there to begin with. Two rounds of work and delivery leave nothing to do,
    and a third one changes nothing and gives out no number. -/
theorem reactions_die_out :
    (∀ (s : Session) (next : Nat) (d : Delivery), ∃ started : Option (Request × Nat),
      (s.react next d).1.jobs =
        s.jobs ++ (started.map fun x => .calculation x.1 x.2).toList ∧
      ∀ (σ : Type) (moments : List (Moment σ)),
        let events := Session.fired (s.react next d).2 ++
          started.toList.flatMap fun x => (course x.1 (start x.1) moments).events
        events.length ≤ 3 ∧ ∀ e ∈ events, ∀ (s : Session) (next : Nat) (stamp : Stamp),
          s.react next ⟨stamp, e⟩ = (s, [])) ∧
    (∀ (σ : Type) (c : Calculator σ) (moves : List (Move σ)),
      c.bus.listeners.count .session ≤ 1 → c.bus.listeners.count .recorder = 1 →
      let after := moves.foldl moved c
      after.seen.length + after.bus.queue.length ≤
        c.seen.length + (1 + 3) * (c.bus.queue.length + moves.countP Move.isEvent) +
          2 * (c.session.jobs.length + c.standing.toList.length)) ∧
    ∀ (σ : Type) (engine : Registry → Engine σ) (c : Calculator σ),
      let quiet := (c.round engine).round engine
      quiet.isQuiet engine = true ∧ quiet.round engine = quiet ∧
        (c.settle engine).isQuiet engine = true := by
  refine ⟨fun s next d => ?_, fun σ c moves hsession hrecorder => ?_, fun σ engine c =>
    ⟨(round_round engine c).1, (round_round engine c).2, isQuiet_settle engine c⟩⟩
  · rcases Session.modest_react s next d with ⟨⟨started, hjobs, hlimit⟩, hcalm, -⟩
    refine ⟨started, hjobs, fun σ moments => ?_⟩
    have hthree : (if d.event.stirs then 3 else 0) ≤ 3 := by
      split
      · exact Nat.le_refl 3
      · exact Nat.zero_le 3
    have hinert : ∀ e : Event, e.stirs = false → ∀ (s : Session) (next : Nat) (stamp : Stamp),
        s.react next ⟨stamp, e⟩ = (s, []) := fun e he s next stamp => s.react_of_calm next he
    rcases started with _ | ⟨r, token⟩
    · simp only [Option.toList_none, List.flatMap_nil, List.append_nil, List.length_nil] at hlimit ⊢
      exact ⟨Nat.le_trans hlimit hthree, fun e he => hinert e (hcalm e he)⟩
    · have hcourse := brief_foldl r moments ⟨start r, [], []⟩ (brief_start (start r))
      simp only [Option.toList_some, List.flatMap_singleton, List.length_append,
        List.length_singleton, List.forall_mem_append] at hlimit ⊢
      have hfew : (course r (start r) moments).events.length ≤ 2 := hcourse.events.few
      exact ⟨by omega, fun e he => hinert e (hcalm e he),
        fun e he => hinert e (hcourse.events.calm e he)⟩
  · -- Only an event from outside adds to the load, and an event that waits counts at most
    -- four times in it.
    have hload := load_moves moves c hsession (Nat.le_of_eq hrecorder)
    have hstirring := List.countP_le_length (p := Event.stirs) (l := c.bus.waiting)
    simp only [load, Bus.waiting, List.length_map] at hload hstirring ⊢
    omega

/-- A calculator that records what happens to it, with `1/3` in its editor. -/
def recording : Calculator (List Message) :=
  let session := Session.new {} (.new .dec true) .standard .mute
  (new {} { session with screen := { session.screen with editor := .ofText "1/3" } } []).subscribe
    .recorder

/-- A constant that is added from outside has the text calculated, and three events at
    most come of that. -/
theorem reactions_die_out_constant :
    let stirring : List (Move (List Message)) :=
      [.fire (.constantAdded (.plain "a" "2")), .deliver]
    let moves := stirring ++ [.work (Exact.engine {}), .deliver]
    let after := moves.foldl moved recording
    (recording.bus.listeners.count .session ≤ 1 ∧ recording.bus.listeners.count .recorder = 1) ∧
      (stirring.foldl moved recording).session.jobs.length = 1 ∧
      after.seen.length + after.bus.queue.length ≤ 1 + 3 := by
  intro stirring moves after
  have hlisteners : recording.bus.listeners.count .session ≤ 1 ∧
      recording.bus.listeners.count .recorder = 1 := by decide
  rcases reactions_die_out with ⟨-, hfew, -⟩
  have hcount := hfew _ recording moves hlisteners.1 hlisteners.2
  exact ⟨hlisteners, by decide +kernel, hcount⟩

end Calculator

end ExactCalc
