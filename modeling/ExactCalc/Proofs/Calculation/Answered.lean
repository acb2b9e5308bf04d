import ExactCalc.Proofs.Calculation.Submission

/-!
# Answers of a Calculation

A published result is the one its own attempt has rendered.

A calculation publishes messages and a result only at its very end, when an
attempt has rendered a text. Whatever attempt came before, its own last one is
made at a single moment, and what is published is what concluding that attempt
has to say. So a result can be traced to one moment: to what the text was
prepared as, to the engine of that moment, and to the state that the attempt
left. `Course.Told` carries this along a course, together with the fact that
nothing is published on the way.

## Main definitions

* `Event.answers`: The events that tell of an answer.
* `Calculation.Answer`: What a finished calculation has published.
* `Calculation.Course.Told`: What has been published so far.

## Theorems

* `told_next`, `told_foldl`: What one step and several publish.
* `told_course`: What a whole course publishes.
* `Answer.attempt`: A published result has been rendered by an attempt.
-/

namespace ExactCalc

/-- Whether an event tells of an answer: of its text, or of messages on it. -/
def Event.answers : Event → Bool
  | .calculationResult _ | .calculationMessages _ => true
  | _ => false

namespace Calculation

variable {σ : Type}

section Invariant

variable (r : Request) (known : Prepared → Prop) (present : Moment σ → Prop)

/-- What a finished calculation has published: nothing of an answer, or what
    concluding one attempt has to say. `known` holds of what the text was prepared
    as, and `present` of the moment of the attempt. -/
inductive Answer : List Event → Prop where
  | silent {events : List Event} (h : ∀ e ∈ events, e.answers = false) : Answer events
  | concluded {m : Moment σ} {op : Operation} {p : Prepared} {text : String} (hm : present m)
      (hp : known p)
      (h : (m.engine.attempt p.expression op m.cancelled m.state).reply = .value text) :
      Answer (published (conclude m.engine r op p text
        (m.engine.attempt p.expression op m.cancelled m.state).state).2)

/-- What a course has published so far fits its phase. -/
def Course.Told (c : Course) : Prop :=
  match c.phase with
  | .preparing _ => c.events = []
  | .evaluating _ p => c.events = [] ∧ known p
  | .finished => Answer r known present c.events

end Invariant

section Steps

variable {r : Request} {known : Prepared → Prop} {present : Moment σ → Prop}

/-- A failed attempt publishes nothing of an answer, and nothing at all if the
    calculation starts over. -/
theorem told_afterError (op : Operation) (p : Prepared) (e : EvalError)
    (calls : List Engine.Entry) :
    Course.Told r known present
      ⟨(afterError r op p e).1, calls, published (afterError r op p e).2⟩ := by
  unfold afterError
  split
  · refine .silent (fun event hevent => ?_)
    rw [List.mem_singleton.mp hevent]
    rfl
  · split
    · exact rfl
    · refine .silent (fun event hevent => ?_)
      rw [List.mem_singleton.mp hevent]
      rfl

/-- A step keeps what has been published fitting to the phase. -/
theorem told_next (c : Course) (m : Moment σ) (hm : present m)
    (hknown : ∀ p, Prepared.ofText m.registry m.session r.text = .ok p → known p)
    (h : c.Told r known present) : (c.next r m).Told r known present := by
  rcases step_recorded m.engine m.registry m.session m.cancelled r c.phase m.state c.calls with
    ⟨hphase, heffects, -⟩
  -- The calls are of no account here, so the step is the one of the plain engine.
  suffices hplain : Course.Told r known present
      ⟨(step m.engine m.registry m.session m.cancelled r c.phase m.state).phase, [],
        c.events ++ published
          (step m.engine m.registry m.session m.cancelled r c.phase m.state).effects⟩ by
    unfold Course.next
    unfold Course.Told at hplain ⊢
    simp only [hphase, heffects]
    exact hplain
  rcases c with ⟨op | ⟨op, p⟩ | _, calls, events⟩
  · have hevents : events = [] := h
    subst hevents
    simp only [step, prepare]
    rcases hprepared : Prepared.ofText m.registry m.session r.text with e | p
    · refine .silent (fun event hevent => ?_)
      rw [List.mem_singleton.mp hevent]
      rfl
    · exact ⟨rfl, hknown p hprepared⟩
  · rcases h with ⟨hevents, hp⟩
    simp only at hevents
    subst hevents
    simp only [step, evaluate]
    rcases hattempt : m.engine.attempt p.expression op m.cancelled m.state with
      ⟨text | e | _, t, log⟩
    · have hreply : (m.engine.attempt p.expression op m.cancelled m.state).reply = .value text := by
        rw [hattempt]
      have hstate : (m.engine.attempt p.expression op m.cancelled m.state).state = t := by
        rw [hattempt]
      simp only [published_notes, List.nil_append]
      have hanswer : Answer r known present _ := .concluded hm hp hreply
      rw [hstate] at hanswer
      exact hanswer
    · simp only [published_notes, List.nil_append]
      exact told_afterError op p e []
    · simp only [published_notes, List.nil_append]
      refine .silent (fun event hevent => ?_)
      rw [List.mem_singleton.mp hevent]
      rfl
  · simp only [step, published, List.filterMap_nil, List.append_nil]
    exact h

theorem told_foldl (moments : List (Moment σ)) (c : Course) (hm : ∀ m ∈ moments, present m)
    (hknown : ∀ m ∈ moments, ∀ p, Prepared.ofText m.registry m.session r.text = .ok p → known p)
    (h : c.Told r known present) : (moments.foldl (Course.next r) c).Told r known present := by
  induction moments generalizing c with
  | nil => exact h
  | cons m moments ih =>
      refine ih (c.next r m) (fun m' hm' => hm m' (List.mem_cons_of_mem m hm'))
        (fun m' hm' => hknown m' (List.mem_cons_of_mem m hm')) ?_
      exact told_next c m (hm m List.mem_cons_self) (hknown m List.mem_cons_self) h

/-- Whatever a course has published of an answer comes of concluding an attempt at
    what the text was prepared as, made at one of its moments. -/
theorem told_course (r : Request) (moments : List (Moment σ)) :
    (course r (start r) moments).Told r (fun p => ∃ m ∈ moments,
      Prepared.ofText m.registry m.session r.text = .ok p) (· ∈ moments) :=
  told_foldl moments ⟨start r, [], []⟩ (fun _ hm => hm) (fun m hm _ hp => ⟨m, hm, hp⟩) rfl

theorem Course.Told.answer {c : Course} (h : c.Told r known present) :
    Answer r known present c.events := by
  have hnothing : c.events = [] → Answer r known present c.events := by
    intro hevents
    rw [hevents]
    exact .silent (fun e he => absurd he List.not_mem_nil)
  unfold Course.Told at h
  rcases hphase : c.phase with op | ⟨op, p⟩ | _ <;> rw [hphase] at h
  · exact hnothing h
  · exact hnothing h.1
  · exact h

/-- Concluding an attempt publishes the text that the attempt has rendered, and no other
    result. -/
theorem result_of_conclude {E : Engine σ} {op : Operation} {p : Prepared} {text : String} {s : σ}
    {res : CalculationResult}
    (h : .calculationResult res ∈ published (conclude E r op p text s).2) :
    res = ⟨op, p.expression, text⟩ := by
  have hsame : ∀ {res' : CalculationResult}, Event.calculationResult res = .calculationResult res' →
      res = res' := Event.calculationResult.inj
  rw [published_conclude] at h
  generalize (E.drain s).reply = reply at h
  rcases reply with (_ | ⟨m, ms⟩) | e | _
  · exact hsame (List.mem_singleton.mp h)
  · rcases List.mem_cons.mp h with hmessages | h
    · cases hmessages
    · exact hsame (List.mem_singleton.mp h)
  · exact hsame (List.mem_singleton.mp h)
  · cases List.mem_singleton.mp h

/-- A published result has been rendered by an attempt. -/
theorem Answer.attempt {events : List Event} (h : Answer r known present events)
    {res : CalculationResult} (hres : .calculationResult res ∈ events) :
    ∃ m, present m ∧ (m.engine.attempt res.expression res.operation m.cancelled m.state).reply =
      .value res.text := by
  cases h with
  | silent h => exact absurd (h _ hres) Bool.true_eq_false.mp
  | @concluded m op p text hm _ hreply =>
      rw [result_of_conclude hres]
      exact ⟨m, hm, hreply⟩

end Steps

end Calculation

end ExactCalc
