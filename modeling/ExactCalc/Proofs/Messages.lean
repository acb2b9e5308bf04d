import ExactCalc.Proofs.Calculation.Answered
import ExactCalc.Proofs.Evaluation
import Mathlib.Data.List.Forall2
import Mathlib.Data.List.Nodup

/-!
# Messages of the Exact Engine

Messages stay with the calculation they belong to.

The engine keeps its messages from one call to the next, and whoever calls it
may stop anywhere: after an evaluation that failed, between an evaluation and its
rendering, or after one result has been rendered several times. Two things keep
the messages apart all the same. Work never looks at what is kept, so a call adds
the same messages whatever came before. And an evaluation begins by letting go of
what is kept. What the engine hands over is then a matter of the history of its
uses: the messages of those since the last evaluation or the last time they were
handed over.

A calculation may fail, be called off, or make two attempts. Its answer comes of
its last attempt, which begins with an evaluation; so the messages published with
a text are those of the attempt that has rendered that text.

## Main definitions

* `Exact.Use`, `Exact.kept`, `Exact.recent`: A history of uses, what the engine
  keeps after it, and the uses that the messages can come from.
* `Exact.ComesFrom`: The messages that are left by uses.
* `Calculator.Truthful`, `Calculator.Told`: The events of an answer, and of a job.

## Theorems

* `attempt_fresh`: An attempt is the same whatever is kept before.
* `comesFrom_recent`: What is kept after a history.
* `truthful_of_answer`: What a calculation publishes.
* `work_told`: What the worker publishes.
* `messages_never_leak`: The messages handed over, and those published.
-/

namespace ExactCalc

namespace Exact

@[simp] theorem mem_foldl_adjoin {kept ms : List Message} {m : Message} :
    m ∈ ms.foldl adjoin kept ↔ m ∈ kept ∨ m ∈ ms := by
  induction ms generalizing kept with
  | nil => simp only [List.foldl_nil, List.not_mem_nil, or_false]
  | cons x ms ih =>
      have hadjoin : m ∈ adjoin kept x ↔ m ∈ kept ∨ m = x := by
        unfold adjoin
        by_cases hx : kept.contains x = true
        · rw [if_pos hx]
          exact ⟨.inl, fun h => h.elim id (fun h => h ▸ List.contains_iff_mem.mp hx)⟩
        · rw [if_neg hx, List.mem_append, List.mem_singleton]
      rw [List.foldl_cons, ih, hadjoin, List.mem_cons, or_assoc]

theorem nodup_foldl_adjoin {kept : List Message} (ms : List Message) (h : kept.Nodup) :
    (ms.foldl adjoin kept).Nodup := by
  induction ms generalizing kept with
  | nil => exact h
  | cons x ms ih =>
      refine ih ?_
      unfold adjoin
      by_cases hx : kept.contains x = true
      · rw [if_pos hx]
        exact h
      · rw [if_neg hx, ← List.concat_eq_append]
        exact h.concat (fun hmem => hx (List.contains_iff_mem.mpr hmem))

/-- A run of work that ends in one way and adds the same to two trails. -/
theorem run_of_ends {α : Type} {w : Rendering α} {kept first : List Message}
    {r : Except Stop α} {ms : List Message} {rs : List Journal.Record}
    (hw : w.run.run ⟨kept, []⟩ = (r, Trail.add ⟨first, []⟩ ms rs)) :
    run w kept = ⟨replyOf r, ms.foldl adjoin first, rs⟩ := by
  rcases r with (e | o) | a <;> simp only [run, hw, Trail.add, List.nil_append, replyOf]

/-- A run of work that only adds to its trail ends the same way and adds the same
    messages, whatever is kept before. -/
theorem run_of_adds {α : Type} {w : Rendering α} (h : Adds w) :
    ∃ reply, ∃ ms : List Message, ∃ log,
      ∀ kept, run w kept = ⟨reply, ms.foldl adjoin kept, log⟩ := by
  rcases h with ⟨r, ms, rs, hw⟩
  exact ⟨replyOf r, ms, rs, fun kept => run_of_ends (hw _)⟩

/-- And a run of an evaluation leaves the same messages, whatever is kept before. -/
theorem run_evaluate (settings : Settings) (registry : Registry) (expression : String)
    (op : Operation) (cancelled : Bool) :
    ∃ reply, ∃ ms : List Message, ∃ log, ∀ kept,
      run (toRendering (evaluate settings registry expression op cancelled)) kept =
        ⟨reply, ms.foldl adjoin [], log⟩ := by
  rcases evaluate_adds settings registry expression op cancelled with ⟨r, ms, rs, hw⟩
  exact ⟨replyOf (r.mapError Stop.failure), ms, rs,
    fun kept => run_of_ends (run_toRendering (hw _))⟩

/-- An attempt is the same whatever is kept before. -/
theorem attempt_fresh (settings : Settings) (registry : Registry) (expression : String)
    (op : Operation) (cancelled : Bool) (kept : List Message) :
    (engine settings registry).attempt expression op cancelled kept =
      (engine settings registry).attempt expression op cancelled [] := by
  rcases run_evaluate settings registry expression op cancelled with ⟨reply, ms, log, hrun⟩
  have hfirst : (engine settings registry).evaluate expression op cancelled kept =
      (engine settings registry).evaluate expression op cancelled [] :=
    (hrun kept).trans (hrun []).symm
  simp only [Engine.attempt, hfirst]

/-- A use of an engine. Engines may take turns, since all of them keep their messages
    in the same place. -/
inductive Use where
  | evaluate (settings : Settings) (registry : Registry) (expression : String) (op : Operation)
      (cancelled : Bool)
  | render (settings : Settings) (registry : Registry) (d : Deferred) (cancelled : Bool)
  | drain (settings : Settings) (registry : Registry)

/-- The messages kept after a use. -/
def Use.leaves (messages : List Message) : Use → List Message
  | .evaluate settings registry expression op cancelled =>
    ((engine settings registry).evaluate expression op cancelled messages).state
  | .render settings registry d cancelled =>
    ((engine settings registry).render d cancelled messages).state
  | .drain settings registry => ((engine settings registry).drain messages).state

/-- The uses that kept messages can come from, after one more use. -/
def Use.since (uses : List Use) (u : Use) : List Use :=
  match u with
  | .evaluate .. => [u]
  | .render .. => uses ++ [u]
  | .drain .. => []

/-- The messages kept after a history of uses, the first use first. -/
def kept (uses : List Use) : List Message := uses.foldl Use.leaves []

/-- The uses from the last evaluation on, or after the last time that the messages
    were handed over, if that came later. -/
def recent (uses : List Use) : List Use := uses.foldl Use.since []

/-- Messages come, without repetition, from the given uses: each of them would have
    been left by one of those on its own. -/
structure ComesFrom (messages : List Message) (uses : List Use) : Prop where
  mem_iff : ∀ m, m ∈ messages ↔ ∃ u ∈ uses, m ∈ u.leaves []
  nodup : messages.Nodup

/-- One more use keeps the messages coming from the uses they can come from. -/
theorem ComesFrom.leaves {messages : List Message} {uses : List Use} (h : ComesFrom messages uses)
    (u : Use) : ComesFrom (u.leaves messages) (u.since uses) := by
  cases u with
  | evaluate settings registry expression op cancelled =>
      rcases run_evaluate settings registry expression op cancelled with ⟨reply, ms, log, hrun⟩
      have hleaves : ∀ kept, (Use.evaluate settings registry expression op cancelled).leaves kept =
          ms.foldl adjoin [] := fun kept => congrArg Engine.Call.state (hrun kept)
      refine ⟨fun m => ?_, ?_⟩
      · simp only [Use.since, List.mem_singleton, exists_eq_left, hleaves]
      · rw [hleaves]
        exact nodup_foldl_adjoin ms List.nodup_nil
  | render settings registry d cancelled =>
      rcases run_of_adds (adds_render d cancelled) with ⟨reply, ms, log, hrun⟩
      have hleaves : ∀ kept, (Use.render settings registry d cancelled).leaves kept =
          ms.foldl adjoin kept := fun kept => congrArg Engine.Call.state (hrun kept)
      refine ⟨fun m => ?_, ?_⟩
      · simp only [Use.since, List.mem_append, List.mem_singleton, or_and_right, exists_or,
          exists_eq_left, hleaves, mem_foldl_adjoin, h.mem_iff, List.not_mem_nil, false_or]
      · rw [hleaves]
        exact nodup_foldl_adjoin ms h.nodup
  | drain settings registry =>
      exact ⟨fun m => by simp only [Use.leaves, engine, Use.since, List.not_mem_nil, false_and,
        exists_false], List.nodup_nil⟩

theorem comesFrom_foldl (uses : List Use) {messages : List Message} {before : List Use}
    (h : ComesFrom messages before) :
    ComesFrom (uses.foldl Use.leaves messages) (uses.foldl Use.since before) := by
  induction uses generalizing messages before with
  | nil => exact h
  | cons u uses ih => exact ih (h.leaves u)

/-- After every history the messages come from the recent uses. -/
theorem comesFrom_recent (uses : List Use) : ComesFrom (kept uses) (recent uses) :=
  comesFrom_foldl uses ⟨fun m => by simp only [List.not_mem_nil, false_and, exists_false],
    List.nodup_nil⟩

end Exact

namespace Calculator

open Calculation

/-- The event that tells of messages, if there are any. -/
def tell (ms : List Message) : List Event :=
  if ms = [] then [] else [.calculationMessages ms]

/-- Events that tell of no answer, or of one attempt and of nothing else: of the text
    that it rendered, and of the messages that it leaves when none are kept before. -/
inductive Truthful (settings : Settings) (registry : Registry) : List Event → Prop where
  | silent {events : List Event} (h : ∀ e ∈ events, e.answers = false) :
      Truthful settings registry events
  | answer {expression : String} {op : Operation} {cancelled : Bool} {text : String}
      (h : ((Exact.engine settings registry).attempt expression op cancelled []).reply =
        .value text) :
      Truthful settings registry
        (tell ((Exact.engine settings registry).attempt expression op cancelled []).state ++
          [.calculationResult ⟨op, expression, text⟩])

/-- What the worker may publish for a job: of a calculation the truth, and of a
    conversion no answer. -/
def Told (settings : Settings) (registry : Registry) (job : Session.Job)
    (events : List (Nat × Event)) : Prop :=
  match job with
  | .calculation r _ =>
    ∃ fresh, events = fresh.map (r.sequence, ·) ∧ Truthful settings registry fresh
  | .conversion _ _ => ∀ x ∈ events, x.2.answers = false

/-- The jobs the worker is to do: the calculation it stands before, if there is one,
    and those that are queued. -/
def pending (c : Calculator (List Message)) : List Session.Job :=
  (c.standing.map fun s => .calculation s.request s.token).toList ++ c.session.jobs

section Worker

variable {settings : Settings} {registry : Registry} {c : Calculator (List Message)}

/-- An answer of the exact engine is truthful, because its attempt begins with an
    evaluation. -/
theorem truthful_of_answer {r : Request} {known : Prepared → Prop} {events : List Event}
    (h : Answer r known (·.engine = Exact.engine settings registry) events) :
    Truthful settings registry events := by
  cases h with
  | silent h => exact .silent h
  | @concluded m op p text hm _ hreply =>
      rcases m with ⟨E, messages, reg, session, cancelled⟩
      simp only at hm
      subst hm
      simp only [Exact.attempt_fresh settings registry p.expression op cancelled messages]
        at hreply ⊢
      have hanswer := Truthful.answer hreply
      generalize ((Exact.engine settings registry).attempt p.expression op cancelled []).state = ms
        at hanswer
      -- Handing over never fails, so only whether there are any messages matters.
      rcases ms with _ | ⟨m, ms⟩ <;> exact hanswer

/-- The exact engine never waits, so the worker never stops before a calculation. -/
theorem advance_standing (r : Request) (token steps : Nat) (phase : Phase) :
    (advance (Exact.engine settings) r token steps phase c).standing = c.standing := by
  induction steps generalizing phase c with
  | zero => rfl
  | succ steps ih =>
      have hwait : c.mustWait (Exact.engine settings) phase = false := by
        cases phase <;> rfl
      rw [advance, hwait, if_neg Bool.false_ne_true]
      rw [ih, (step_carries (Exact.engine settings) r token c ⟨phase, [], []⟩).2.1]

/-- A job that the worker has done: it has told of the job and left the other jobs
    and the constants alone. -/
structure Does (settings : Settings) (job : Session.Job) (c c' : Calculator (List Message)) :
    Prop where
  told : ∃ events, Told settings c.session.registry job events ∧
    c'.bus.announced = c.bus.announced ++ events
  spares : Spares c c'
  standing : c'.standing = c.standing

theorem does_proceed (settings : Settings) (c : Calculator (List Message)) (s : Standing) :
    Does settings (.calculation s.request s.token) c (c.proceed (Exact.engine settings) s) := by
  rcases advance_carries (Exact.engine settings) s.request s.token s.phase.rank c
    ⟨s.phase, [], []⟩ (Nat.le_refl _) with ⟨hspares, moments, hengine, ⟨fresh, hfresh, hbus⟩, -⟩
  refine ⟨⟨fresh.map (s.request.sequence, ·), ⟨fresh, rfl, ?_⟩, hbus⟩, hspares,
    advance_standing s.request s.token s.phase.rank s.phase⟩
  -- Nothing has been published when the worker takes the calculation up.
  have hstart : Course.Told s.request (fun _ => True)
      (·.engine = Exact.engine settings c.session.registry) ⟨s.phase, [], []⟩ := by
    rcases s.phase with op | ⟨op, p⟩ | _
    · exact rfl
    · exact ⟨rfl, trivial⟩
    · exact .silent (fun e he => absurd he List.not_mem_nil)
  have htold := told_foldl moments ⟨s.phase, [], []⟩ hengine (fun _ _ _ _ => trivial) hstart
  rw [List.nil_append] at hfresh
  rw [← hfresh]
  exact truthful_of_answer htold.answer

theorem does_conversion (settings : Settings) (c : Calculator (List Message)) (sequence : Nat)
    (conversion : Conversion) :
    Does settings (.conversion sequence conversion) c
      (c.performConversion sequence conversion) := by
  have hstarted := announced_fireIn c sequence (.conversionStarted conversion)
  unfold performConversion
  split
  · rename_i text _
    refine ⟨⟨[(sequence, .conversionStarted conversion),
      (sequence, .conversionResult conversion text)], ?_, ?_⟩, ?_, rfl⟩
    · simp only [Told, List.forall_mem_cons, Event.answers, List.not_mem_nil, false_implies,
        implies_true, and_self]
    · rw [announced_fireIn, hstarted, List.append_assoc]
      rfl
    · exact (spares_act c worker _).trans (spares_act _ worker _)
  · rename_i e _
    refine ⟨⟨[(sequence, .conversionStarted conversion),
      (sequence, .conversionFailed conversion e)], ?_, ?_⟩, ?_, rfl⟩
    · simp only [Told, List.forall_mem_cons, Event.answers, List.not_mem_nil, false_implies,
        implies_true, and_self]
    · rw [announced_fireIn, note, hstarted, List.append_assoc]
      rfl
    · have hstart := spares_act c worker (.fireIn sequence (.conversionStarted conversion))
      have hnoted := hstart.trans (spares_notes _ [refusalRecord sequence e])
      exact hnoted.trans (spares_act _ worker (.fireIn sequence (.conversionFailed conversion e)))

theorem does_perform (settings : Settings) (c : Calculator (List Message)) (job : Session.Job) :
    Does settings job c (c.perform (Exact.engine settings) job) := by
  cases job with
  | calculation r token => exact does_proceed settings c ⟨r, token, start r⟩
  | conversion sequence conversion => exact does_conversion settings c sequence conversion

theorem work_jobs (settings : Settings) (jobs : List Session.Job)
    (hjobs : c.session.jobs = jobs) (hstanding : c.standing = none) :
    ∃ chunks, List.Forall₂ (Told settings c.session.registry) jobs chunks ∧
      (jobs.foldl (fun c _ => c.workNext (Exact.engine settings)) c).bus.announced =
        c.bus.announced ++ chunks.flatten := by
  induction jobs generalizing c with
  | nil => exact ⟨[], .nil, (List.append_nil _).symm⟩
  | cons job jobs ih =>
      have hnext : c.workNext (Exact.engine settings) =
          { c with session := { c.session with jobs := jobs } }.perform
            (Exact.engine settings) job := by
        rw [workNext, hstanding, hjobs]
      rcases does_perform settings
        { c with session := { c.session with jobs := jobs } } job with
          ⟨⟨events, htold, hbus⟩, hspares, hstill⟩
      rw [← hnext] at hbus hspares hstill
      rcases ih hspares.jobs (hstill.trans hstanding) with ⟨chunks, hchunks, hrest⟩
      rw [hspares.registry] at hchunks
      refine ⟨events :: chunks, .cons htold hchunks, ?_⟩
      rw [List.foldl_cons, hrest, hbus, List.flatten_cons, List.append_assoc]

/-- The worker tells of each job that is pending, in order, and of nothing else. -/
theorem work_told (settings : Settings) (c : Calculator (List Message)) :
    ∃ chunks, List.Forall₂ (Told settings c.session.registry) c.pending chunks ∧
      (c.work (Exact.engine settings)).bus.announced = c.bus.announced ++ chunks.flatten := by
  unfold work resume pending
  rcases hstanding : c.standing with _ | s
  · exact work_jobs settings c.session.jobs rfl hstanding
  · rcases does_proceed settings { c with standing := none } s with
      ⟨⟨events, htold, hbus⟩, hspares, hstill⟩
    rcases work_jobs settings c.session.jobs hspares.jobs hstill with
      ⟨chunks, hchunks, hrest⟩
    rw [hspares.registry] at hchunks
    refine ⟨events :: chunks, .cons htold hchunks, ?_⟩
    rw [hrest, hbus, List.flatten_cons, List.append_assoc]

end Worker

/-- Messages never get from one calculation into another. Whatever the history of
    evaluations, renderings and handovers, by however many engines that keep their
    messages in one place, what is handed over has no repetition and consists of the
    messages that the uses since the last evaluation or handover leave on their own.
    And whatever the state of a calculator and of its engine, for each calculation
    the worker publishes nothing of an answer, or else the text that one attempt has
    rendered, after exactly the messages of that attempt. -/
theorem messages_never_leak :
    (∀ (uses : List Exact.Use) (settings : Settings) (registry : Registry),
      ((Exact.engine settings registry).drain (Exact.kept uses)).reply =
          .value (Exact.kept uses) ∧
        (Exact.kept uses).Nodup ∧
        ∀ m, m ∈ Exact.kept uses ↔ ∃ u ∈ Exact.recent uses, m ∈ u.leaves []) ∧
    ∀ (settings : Settings) (c : Calculator (List Message)),
      ∃ chunks, List.Forall₂ (Told settings c.session.registry) c.pending chunks ∧
        (c.work (Exact.engine settings)).bus.announced = c.bus.announced ++ chunks.flatten :=
  ⟨fun uses _ _ => ⟨rfl, (Exact.comesFrom_recent uses).nodup,
    (Exact.comesFrom_recent uses).mem_iff⟩, work_told⟩

end Calculator

end ExactCalc
