import ExactCalc.Proofs.Reaction
import ExactCalc.Proofs.Registry
import Mathlib.Data.List.Destutter

/-!
# The Display and the Last Answer

How the last answer follows what is displayed, and what is told of it.

A session hears of whatever is published, and others may change the constants in
between, only not the last answer. Of all this nothing but a displayed result writes to
the constants, and it writes to one entry. If the text is the value of that entry
already, nothing is done and nothing is told. Otherwise the new entry is saved, and one
event carries it, along with the entry before if there has been one.

So the events that tell of constants are an account of one entry: each starts from
where the one before has left it. Whoever writes down what they carry has the last
answer without ever asking for it, and has written it down as often as it has changed.

## Main definitions

* `Session.Turn`, `Session.turns`: What the session hears, and what others change.
* `Session.shown`: The results that are displayed, in order.
* `Session.told`, `Event.replayed`, `Session.Recounts`: What events tell of constants.
* `Session.answers`: The values of the last answer, one after each turn.

## Theorems

* `told_turn`: What a turn does to the last answer and tells of it.
* `find?_turn_of_ne`: What a turn does to the other constants.
* `recounts_turns`, `values_turns`: The events of any turns are an account of the last
  answer, and carry each of its values once.
* `answer_follows_display`: All of this together.
-/

namespace ExactCalc

/-- The result that an event displays, without blanks around it, if the display is valid
    and is not blank. -/
def Event.shown? : Event → Option String
  | .displayChanged c =>
    if c.new.valid = true ∧ Text.trimmed c.new.text ≠ "" then some (Text.trimmed c.new.text)
    else none
  | _ => none

/-- Whether an event tells of a constant. -/
def Event.tellsConstant : Event → Bool
  | .constantAdded _ | .constantChanged _ | .constantRemoved _ => true
  | _ => false

/-- The entry that an event carries for a constant, if it leaves the constant one. -/
def Event.carried? : Event → Option Variable
  | .constantAdded v => some v
  | .constantChanged c => some c.new
  | _ => none

/-- The entry of a constant according to an event, if it was another before. -/
def Event.replayed (before : Option Variable) (e : Event) : Option Variable :=
  if e.tellsConstant then e.carried? else before

namespace Session

/-- What happens around the constants of a session. -/
inductive Turn where
  /-- The session hears of an event. -/
  | heard (next : Nat) (d : Delivery)
  /-- Somebody else changes a constant. -/
  | changed (c : Registry.Change)
  deriving DecidableEq, Repr

namespace Turn

/-- The result that is displayed. -/
def shown? : Turn → Option String
  | heard _ d => d.event.shown?
  | changed _ => none

/-- What somebody else changes. -/
def change? : Turn → Option Registry.Change
  | heard _ _ => none
  | changed c => some c

end Turn

/-- The session after a turn, and what it does to the bus. -/
def turn (s : Session) : Turn → Session × List Action
  | .heard next d => s.react next d
  | .changed c => ({ s with registry := s.registry.changed c }, [])

/-- The session after some turns, and what it has done to the bus. -/
def turns (s : Session) : List Turn → Session × List Action
  | [] => (s, [])
  | t :: ts =>
    let rest := (s.turn t).1.turns ts
    (rest.1, (s.turn t).2 ++ rest.2)

/-- The results that are displayed, in order. -/
def shown (ts : List Turn) : List String := ts.filterMap Turn.shown?

/-- What others change, in order. -/
def changes (ts : List Turn) : List Registry.Change := ts.filterMap Turn.change?

/-- The events that are published about constants, in order. -/
def told (actions : List Action) : List Event := (fired actions).filter Event.tellsConstant

/-- The entry of the last answer. -/
def answer? (s : Session) : Option Variable := s.registry.find? Variable.answerName

/-- The value of the last answer. -/
def answerValue? (s : Session) : Option String := s.answer?.map (·.value)

/-- The values of the last answer, one after each turn. -/
def answers (s : Session) : List Turn → List (Option String)
  | [] => []
  | t :: ts => (s.turn t).1.answerValue? :: (s.turn t).1.answers ts

/-- The events lead from one entry of the last answer to another: each tells that it has
    been added, if there was none, or that it has changed from what it was to another
    value. -/
inductive Recounts : Option Variable → List Event → Option Variable → Prop where
  | nothing (v : Option Variable) : Recounts v [] v
  | added {v : Variable} {es : List Event} {last : Option Variable}
      (hname : v.name = Variable.answerName) (h : Recounts (some v) es last) :
      Recounts none (.constantAdded v :: es) last
  | changed {old new : Variable} {es : List Event} {last : Option Variable}
      (hname : new.name = Variable.answerName) (hvalue : old.value ≠ new.value)
      (h : Recounts (some new) es last) :
      Recounts (some old) (.constantChanged ⟨old, new⟩ :: es) last

/-- What an event tells of a new entry. -/
def announcement (v : Variable) : Option Variable → Event
  | none => .constantAdded v
  | some old => .constantChanged ⟨old, v⟩

/-- A change of a session that leaves the constants alone and tells nothing of them. -/
structure Withdrawn (s : Session) (change : Session × List Action) : Prop where
  registry : change.1.registry = s.registry
  untold : told change.2 = []

section Reacting

variable (s : Session)

@[simp, grind =]
theorem told_append (as bs : List Action) : told (as ++ bs) = told as ++ told bs := by
  rw [told, fired, List.filterMap_append, List.filter_append]
  rfl

theorem withdrawn_nothing : s.Withdrawn (s, []) := ⟨rfl, rfl⟩

/-- An action that tells of no constant goes unnoticed. -/
theorem Withdrawn.cons {change : Session × List Action} (h : s.Withdrawn change) {a : Action}
    (hevent : ∀ e ∈ a.event?, e.tellsConstant = false) :
    s.Withdrawn (change.1, a :: change.2) := by
  refine ⟨h.registry, ?_⟩
  have hsplit : told (a :: change.2) = told [a] ++ told change.2 := told_append [a] change.2
  rw [hsplit, h.untold, List.append_nil, told, fired]
  rcases ha : a.event? with _ | e
  · rw [List.filterMap_cons_none ha]
    rfl
  · rw [List.filterMap_cons_some ha, List.filter_cons_of_neg]
    · rfl
    · rw [hevent e ha]
      exact Bool.false_ne_true

theorem withdrawn_submitNumbered (sequence : Nat) (op : Operation) (text : String) :
    s.Withdrawn (s.submitNumbered sequence op text) := by
  by_cases hblank : Text.trimmed text = ""
  · rw [submitNumbered_blank s sequence op hblank]
    exact ⟨rfl, rfl⟩
  · rw [submitNumbered_full s sequence op hblank]
    exact ⟨rfl, rfl⟩

theorem withdrawn_calculateEditor (next : Nat) (sequence : Option Nat) (op : Operation) :
    s.Withdrawn (s.calculateEditor next sequence op) := by
  have hsubmitted := withdrawn_submitNumbered s (sequence.getD next) op s.screen.editor.text
  have hrequest : ∀ e ∈ some (Event.calculationRequested s.screen.editor),
      e.tellsConstant = false := fun e he => Option.mem_some_iff.mp he ▸ rfl
  unfold calculateEditor
  generalize s.submitNumbered (sequence.getD next) op s.screen.editor.text = change at hsubmitted
  cases sequence with
  | none => exact hsubmitted.cons s hrequest
  | some sequence => exact hsubmitted.cons s hrequest

theorem withdrawn_calculateLive (sequence : Nat) (text : String) :
    s.Withdrawn (s.calculateLive sequence text) := by
  have hregistry : (s.supersede sequence).1.registry = s.registry := by
    unfold supersede
    split
    · split <;> rfl
    · rfl
  have hsilent : told (s.supersede sequence).2 = [] := by
    have hfired : fired (s.supersede sequence).2 = [] :=
      List.filterMap_eq_nil_iff.mpr fun a ha => ((supersede_spares s sequence).2 a ha).1
    rw [told, hfired]
    rfl
  rw [calculateLive_eq]
  generalize s.supersede sequence = called at hregistry hsilent
  rcases called with ⟨s', before⟩
  have hsubmitted := withdrawn_submitNumbered { s' with liveSequence := some sequence } sequence
    .numeric text
  generalize Session.submitNumbered { s' with liveSequence := some sequence } sequence
    .numeric text = change at hsubmitted
  refine ⟨hsubmitted.registry.trans hregistry, ?_⟩
  simp only at hsilent
  simp only [told_append, hsilent, hsubmitted.untold, List.append_nil]

/-- What is kept is the result that is displayed. -/
theorem result?_eq_shown? (c : Change Display) :
    c.new.result? = (Event.displayChanged c).shown? := by
  have hempty : (Text.trim c.new.text.toList).isEmpty = false ↔ Text.trimmed c.new.text ≠ "" := by
    rw [List.isEmpty_eq_false_iff, Text.trimmed, ne_eq, ne_eq, String.ofList_eq_empty_iff]
  simp only [Display.result?, Event.shown?, Bool.and_eq_true, Bool.not_eq_true', hempty]
  rfl

/-- Nothing but a displayed result has the session write to the constants. -/
theorem withdrawn_react (next : Nat) {d : Delivery} (h : d.event.shown? = none) :
    s.Withdrawn (s.react next d) := by
  have hedit := fun sequence => withdrawn_calculateEditor s next sequence .numeric
  have hconstant : ∀ b : Bool,
      s.Withdrawn (if b then s.calculateEditor next none .numeric else (s, [])) := fun b => by
    cases b with
    | false => exact withdrawn_nothing s
    | true => exact hedit none
  rcases d with ⟨stamp, e⟩
  cases e with
  | editorChanged c =>
      unfold react
      simp only
      split
      · exact withdrawn_calculateLive s _ _
      · exact withdrawn_nothing s
  | displayChanged c =>
      have hnone : c.new.result? = none := (result?_eq_shown? c).trans h
      simp only [react, hnone]
      exact withdrawn_nothing s
  | constantChanged c => exact hconstant _
  | constantAdded v => exact hconstant _
  | constantRemoved v => exact hconstant _
  | functionAdded | functionChanged | functionRemoved => exact hedit none
  | preferencesChanged => exact hedit _
  | _ => exact withdrawn_nothing s

/-- A displayed result is kept as the last answer. -/
theorem react_of_shown (next : Nat) {d : Delivery} {text : String}
    (h : d.event.shown? = some text) : s.react next d = s.keepAnswer text := by
  rcases d with ⟨stamp, e⟩
  cases e with
  | displayChanged c =>
      have hsome : c.new.result? = some text := (result?_eq_shown? c).trans h
      simp only [react, hsome]
  | _ => cases h

/-- An answer that is no change is passed over, and any other is saved and told of. -/
theorem told_keepAnswer (text : String) :
    (s.answerValue? = some text ∧ s.keepAnswer text = (s, [])) ∨
      (s.answerValue? ≠ some text ∧
        (s.keepAnswer text).1.registry = s.registry.save (.answer text) ∧
        told (s.keepAnswer text).2 = [announcement (.answer text) s.answer?]) := by
  unfold answerValue? answer?
  rcases hlast : s.registry.find? Variable.answerName with _ | old
  · refine .inr ⟨(Option.some_ne_none text).symm, ?_⟩
    simp only [keepAnswer, hlast, Option.any_none, Bool.false_eq_true, if_false]
    exact ⟨trivial, rfl⟩
  · by_cases hvalue : old.value = text
    · exact .inl ⟨congrArg some hvalue, hvalue ▸ keepAnswer_eq_self s old hlast⟩
    · refine .inr ⟨fun h => hvalue (Option.some.inj h), ?_⟩
      have hdiffers : (old.value == text) = false := beq_eq_false_iff_ne.mpr hvalue
      simp only [keepAnswer, hlast, Option.any_some, hdiffers, Bool.false_eq_true, if_false]
      exact ⟨trivial, rfl⟩

end Reacting

section Turns

variable {s : Session} {t : Turn} {ts : List Turn}

/-- A turn either leaves the last answer alone and tells nothing, or displays a result
    that it did not have as its value, and tells of that. A result that is displayed is
    its value in the end. -/
theorem told_turn (s : Session) (t : Turn)
    (hother : ∀ c ∈ t.change?, c.name ≠ Variable.answerName) :
    ((s.turn t).1.answer? = s.answer? ∧ told (s.turn t).2 = [] ∧
      ∀ text ∈ t.shown?, s.answerValue? = some text) ∨
    ∃ text, t.shown? = some text ∧ s.answerValue? ≠ some text ∧
      (s.turn t).1.answer? = some (.answer text) ∧
      told (s.turn t).2 = [announcement (.answer text) s.answer?] := by
  cases t with
  | changed c =>
      refine .inl ⟨Registry.find?_changed_of_ne (hother c rfl), rfl, fun text htext => ?_⟩
      exact absurd htext (Option.not_mem_none text)
  | heard next d =>
      rcases hshown : d.event.shown? with _ | text
      · have hwithdrawn := withdrawn_react s next hshown
        refine .inl ⟨?_, hwithdrawn.untold, fun text htext => ?_⟩
        · exact congrArg (Registry.find? · Variable.answerName) hwithdrawn.registry
        · rw [Turn.shown?, hshown] at htext
          exact absurd htext (Option.not_mem_none text)
      · have hturn : s.turn (.heard next d) = s.keepAnswer text := react_of_shown s next hshown
        rw [hturn]
        rcases told_keepAnswer s text with ⟨hsame, hkept⟩ | ⟨hdiffers, hsaved, htold⟩
        · rw [hkept]
          refine .inl ⟨rfl, rfl, fun other hother => ?_⟩
          rw [Turn.shown?, hshown, Option.mem_some_iff] at hother
          rw [hsame, hother]
        · refine .inr ⟨text, hshown, hdiffers, ?_, htold⟩
          unfold answer?
          rw [hsaved, Registry.find?_save]
          exact if_pos rfl

/-- A turn changes no other constant than somebody else changes. -/
theorem find?_turn_of_ne {r : Registry} {name : String} (hname : name ≠ Variable.answerName)
    (h : s.registry.find? name = r.find? name) :
    (s.turn t).1.registry.find? name = (r.after t.change?.toList).find? name := by
  cases t with
  | changed c =>
      show (s.registry.changed c).find? name = (r.changed c).find? name
      rw [Registry.find?_changed, Registry.find?_changed, h]
  | heard next d =>
      show (s.react next d).1.registry.find? name = r.find? name
      rcases hshown : d.event.shown? with _ | text
      · rw [(withdrawn_react s next hshown).registry, h]
      · rw [react_of_shown s next hshown]
        rcases told_keepAnswer s text with ⟨-, hkept⟩ | ⟨-, hsaved, -⟩
        · rw [hkept, h]
        · have hother : (Variable.answer text).name ≠ name := Ne.symm hname
          rw [hsaved, Registry.find?_save, if_neg hother, h]

theorem find?_turns_of_ne {r : Registry} {name : String} (hname : name ≠ Variable.answerName)
    (h : s.registry.find? name = r.find? name) :
    (s.turns ts).1.registry.find? name = (r.after (changes ts)).find? name := by
  induction ts generalizing s r with
  | nil => exact h
  | cons t ts ih =>
      have hsplit : r.after (changes (t :: ts)) =
          (r.after t.change?.toList).after (changes ts) := by
        rw [changes, List.filterMap_cons]
        cases t.change? <;> rfl
      rw [hsplit]
      exact ih (find?_turn_of_ne hname h)

theorem forall_changes_cons {P : Registry.Change → Prop}
    (h : ∀ c ∈ changes (t :: ts), P c) : (∀ c ∈ t.change?, P c) ∧ ∀ c ∈ changes ts, P c := by
  rw [changes, List.filterMap_cons] at h
  rcases hchange : t.change? with _ | c
  · rw [hchange] at h
    exact ⟨fun c hc => absurd hc (Option.not_mem_none c), h⟩
  · rw [hchange] at h
    rcases List.forall_mem_cons.mp h with ⟨hc, hrest⟩
    exact ⟨fun d hd => Option.mem_some_iff.mp hd ▸ hc, hrest⟩

/-- The last result that is displayed is the value of the last answer. -/
theorem answerValue?_turns (hother : ∀ c ∈ changes ts, c.name ≠ Variable.answerName) :
    (s.turns ts).1.answerValue? = (shown ts).getLast?.or s.answerValue? := by
  induction ts generalizing s with
  | nil => rfl
  | cons t ts ih =>
      rcases forall_changes_cons hother with ⟨hturn, hrest⟩
      have hvalue : (s.turn t).1.answerValue? = t.shown?.or s.answerValue? := by
        rcases told_turn s t hturn with ⟨hsame, -, hshown⟩ | ⟨text, hshown, -, hkept, -⟩
        · rw [answerValue?, hsame]
          rcases htext : t.shown? with _ | text
          · rfl
          · exact hshown text htext
        · rw [answerValue?, hkept, hshown]
          rfl
      have hlast : (shown (t :: ts)).getLast? = (shown ts).getLast?.or t.shown? := by
        rw [shown, List.filterMap_cons]
        rcases t.shown? with _ | text
        · rw [Option.or_none]
          rfl
        · rw [List.getLast?_cons, shown]
          cases (List.filterMap Turn.shown? ts).getLast? <;> rfl
      rw [turns, ih hrest, hvalue, hlast, Option.or_assoc]

/-- The events of any turns are an account of the last answer. -/
theorem recounts_turns (hother : ∀ c ∈ changes ts, c.name ≠ Variable.answerName) :
    Recounts s.answer? (told (s.turns ts).2) (s.turns ts).1.answer? := by
  induction ts generalizing s with
  | nil => exact .nothing _
  | cons t ts ih =>
      rcases forall_changes_cons hother with ⟨hturn, hrest⟩
      have hafter := ih (s := (s.turn t).1) hrest
      rw [turns, told_append]
      rcases told_turn s t hturn with ⟨hsame, htold, -⟩ | ⟨text, -, hdiffers, hkept, htold⟩
      · rw [htold, ← hsame]
        exact hafter
      · rw [htold]
        rw [hkept] at hafter
        unfold answerValue? at hdiffers
        rcases hbefore : s.answer? with _ | old
        · exact .added rfl hafter
        · rw [hbefore] at hdiffers
          exact .changed rfl (fun hvalue => hdiffers (congrArg some hvalue)) hafter

/-- Replaying an account leads to where it leads. -/
theorem Recounts.foldl_replayed {first last : Option Variable} {es : List Event}
    (h : Recounts first es last) : es.foldl Event.replayed first = last := by
  induction h with
  | nothing v => rfl
  | added _ _ ih | changed _ _ _ ih => exact ih

/-- The events carry the values of the last answer, each time it has another one. -/
theorem values_turns (hother : ∀ c ∈ changes ts, c.name ≠ Variable.answerName) :
    s.answerValue? :: (told (s.turns ts).2).map (fun e => e.carried?.map (·.value)) =
      (s.answers ts).destutter' (· ≠ ·) s.answerValue? := by
  induction ts generalizing s with
  | nil => rfl
  | cons t ts ih =>
      rcases forall_changes_cons hother with ⟨hturn, hrest⟩
      have hafter := ih (s := (s.turn t).1) hrest
      rw [turns, told_append, answers]
      rcases told_turn s t hturn with ⟨hsame, htold, -⟩ | ⟨text, -, hdiffers, hkept, htold⟩
      · have hvalue : (s.turn t).1.answerValue? = s.answerValue? :=
          congrArg (Option.map Variable.value) hsame
        rw [List.destutter'_cons_neg _ (by rw [hvalue]; exact fun h => h rfl), htold, ← hvalue]
        exact hafter
      · have hvalue : (s.turn t).1.answerValue? = some text :=
          congrArg (Option.map Variable.value) hkept
        have hcarried : (announcement (.answer text) s.answer?).carried? =
            some (.answer text) := by
          cases s.answer? <;> rfl
        rw [List.destutter'_cons_pos _ (by rw [hvalue]; exact hdiffers), ← hafter, htold, hvalue,
          List.singleton_append, List.map_cons, hcarried]
        rfl

end Turns

/-- The last answer follows the display. Over any events that a session hears, while
    others may change any constants but the last answer, its value is the last result that
    was displayed, or what it has been if none was, and the other constants are what others
    have made of them. The events about constants that are published meanwhile are an
    account of the last answer: each is the addition of an entry where there was none, or
    the change to another value of the entry that the event before has carried. Replaying
    them gives the last answer, and they carry the values that it has had after each turn,
    with those left out that are no change. -/
theorem answer_follows_display (s : Session) (ts : List Turn)
    (hother : ∀ c ∈ changes ts, c.name ≠ Variable.answerName) :
    let after := (s.turns ts).1
    let events := told (s.turns ts).2
    after.answerValue? = (shown ts).getLast?.or s.answerValue? ∧
    (∀ name, name ≠ Variable.answerName →
      after.registry.find? name = (s.registry.after (changes ts)).find? name) ∧
    Recounts s.answer? events after.answer? ∧
    events.foldl Event.replayed s.answer? = after.answer? ∧
    s.answerValue? :: events.map (fun e => e.carried?.map (·.value)) =
      (s.answers ts).destutter' (· ≠ ·) s.answerValue? :=
  ⟨answerValue?_turns hother, fun _ hname => find?_turns_of_ne hname rfl, recounts_turns hother,
    (recounts_turns hother).foldl_replayed, values_turns hother⟩

/-- Two results that are displayed one after the other, the first of them twice, with
    another constant and an error in between. -/
theorem answer_follows_display_twice :
    let s := new {} (.new .dec true) .standard .mute
    let displaying (d : Display) : Turn := .heard 1 ⟨⟨1, 1⟩, .displayChanged ⟨.empty, d⟩⟩
    let ts := [displaying (.result " 4 "), displaying (.result "4"),
      .changed (.save (.plain "x" "1")), displaying (.failure "oups"), displaying (.result "5")]
    let events := told (s.turns ts).2
    (∀ c ∈ changes ts, c.name ≠ Variable.answerName) ∧
      (s.turns ts).1.answerValue? = some "5" ∧
      (s.turns ts).1.registry.find? "x" = some (.plain "x" "1") ∧
      events = [.constantAdded (.answer "4"), .constantChanged ⟨.answer "4", .answer "5"⟩] ∧
      events.foldl Event.replayed none = some (.answer "5") := by
  intro s displaying ts events
  have hother : ∀ c ∈ changes ts, c.name ≠ Variable.answerName :=
    List.forall_mem_singleton.mpr (by decide)
  have hevents : events =
      [.constantAdded (.answer "4"), .constantChanged ⟨.answer "4", .answer "5"⟩] := by
    decide +kernel
  have hshown : (shown ts).getLast? = some "5" := by decide +kernel
  rcases answer_follows_display s ts hother with ⟨hvalue, hothers, -, hreplay, -⟩
  refine ⟨hother, by rw [hvalue, hshown]; rfl, (hothers "x" (by decide)).trans (by decide), hevents,
    ?_⟩
  exact hreplay.trans (by decide +kernel)

end Session

end ExactCalc
