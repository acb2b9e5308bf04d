import ExactCalc.Calculator
import Mathlib.Data.List.Chain

/-!
# A History Is a Zipper

What a row of screens with a position in it has to do with going back and forth.

A zipper has the screens before the present one at hand, the nearest first, and the
screens after it, the next first. To go back or forth is to hand one screen over from
one side to the other, and to add a screen is to drop one side. Nothing has to be
counted, so there is no position that could leave the row.

Every zipper is written down as a history, and what can be done with the one is what
can be done with the other: adding, moving and asking commute with writing down. A
history that starts empty is therefore a zipper written down for ever, and gives the
same replies. That its position stays in the row and that no two neighbours are the
same is read off the zipper, and so is that moves back are undone by as many moves
forth.

## Main definitions

* `History.Zipper`: The past, the present and the future.
* `History.Request`, `History.Reply`, `History.converse`: What is asked and answered.
* `History.Zipper.toHistory`: A zipper as a row with a position.

## Theorems

* `add_toHistory`, `move_toHistory`, `isAvailable_toHistory`: What is done with a zipper
  is done with the row.
* `converse_toHistory`: So are any number of requests.
* `distinct_move`, `distinct_add`: Neighbours stay different.
* `redo_of_undo`: Moves back and as many moves forth lead back.
* `history_zips`: All of this for a history that starts empty, and what a calculator
  does with it.
-/

namespace ExactCalc

namespace History

/-- What a history is asked. -/
inductive Request where
  | add (s : Screen)
  | move (m : Move)
  | isAvailable (m : Move)
  deriving DecidableEq, Repr

/-- What a history answers. -/
inductive Reply where
  | added
  /-- The screen that is now present, if the move was possible. -/
  | moved (s : Option Screen)
  | available (yes : Bool)
  deriving DecidableEq, Repr

/-- Requests answered one after the other, by anything that answers one and is another
    thing then. -/
def converse {α : Type} (serve : α → Request → Reply × α) : α → List Request → List Reply × α
  | a, [] => ([], a)
  | a, r :: rs =>
    let rest := converse serve (serve a r).2 rs
    ((serve a r).1 :: rest.1, rest.2)

theorem converse_append {α : Type} (serve : α → Request → Reply × α) (a : α)
    (rs rs' : List Request) :
    converse serve a (rs ++ rs') =
      ((converse serve a rs).1 ++ (converse serve (converse serve a rs).2 rs').1,
        (converse serve (converse serve a rs).2 rs').2) := by
  induction rs generalizing a with
  | nil => rfl
  | cons r rs ih =>
      simp only [List.cons_append, converse, ih]

/-- A number of moves in one direction. -/
def moves (m : Move) (k : Nat) : List Request := List.replicate k (.move m)

/-- Every move has led to a screen. -/
def Led (replies : List Reply) : Prop := ∀ reply ∈ replies, reply ≠ .moved none

/-- A history answers a request. -/
def serve (h : History) : Request → Reply × History
  | .add s => (.added, h.add s)
  | .move m => (.moved (h.move m).1, (h.move m).2)
  | .isAvailable m => (.available (h.isAvailable m), h)

/-- The screen that is present. -/
def present? (h : History) : Option Screen := h.screens[h.position - 1]?

/-- The past, the nearest screen first, the present, and the future, the next screen
    first. -/
inductive Zipper where
  /-- No screen yet. -/
  | nowhere
  | showing (past : List Screen) (present : Screen) (future : List Screen)
  deriving DecidableEq, Repr

namespace Zipper

/-- The future is dropped, and the screen becomes the present unless it is that
    already. -/
def add : Zipper → Screen → Zipper
  | nowhere, s => showing [] s []
  | showing past present _, s =>
    if s = present then showing past present [] else showing (present :: past) s []

/-- Hands the present over to one side and takes the next screen from the other. -/
def move : Zipper → Move → Option Screen × Zipper
  | nowhere, _ => (none, nowhere)
  | showing past present future, .undo =>
    match past with
    | [] => (none, showing [] present future)
    | s :: past => (some s, showing past s (present :: future))
  | showing past present future, .redo =>
    match future with
    | [] => (none, showing past present [])
    | s :: future => (some s, showing (present :: past) s future)

/-- Whether there is a screen on that side. -/
def isAvailable : Zipper → Move → Bool
  | nowhere, _ => false
  | showing past _ _, .undo => !past.isEmpty
  | showing _ _ future, .redo => !future.isEmpty

/-- A zipper answers a request. -/
def serve (z : Zipper) : Request → Reply × Zipper
  | .add s => (.added, z.add s)
  | .move m => (.moved (z.move m).1, (z.move m).2)
  | .isAvailable m => (.available (z.isAvailable m), z)

/-- A zipper as a row of screens and a position in it. -/
def toHistory : Zipper → History
  | nowhere => History.empty
  | showing past present future => ⟨past.reverse ++ present :: future, past.length + 1⟩

section Written

variable (z : Zipper) (m : Move) (s : Screen)

@[simp, grind =] theorem isAvailable_toHistory : z.toHistory.isAvailable m = z.isAvailable m := by
  cases z with
  | nowhere => cases m <;> rfl
  | showing past present future =>
      cases m with
      | undo => cases past <;> simp [toHistory, History.isAvailable, isAvailable]
      | redo =>
          have hlength : (past.reverse ++ present :: future).length =
              past.length + 1 + future.length := by
            rw [List.length_append, List.length_reverse, List.length_cons]
            omega
          simp only [toHistory, History.isAvailable, hlength]
          cases future <;> simp [isAvailable]

@[simp, grind =] theorem move_toHistory :
    z.toHistory.move m = ((z.move m).1, (z.move m).2.toHistory) := by
  unfold History.move
  rw [isAvailable_toHistory]
  cases z with
  | nowhere => cases m <;> rfl
  | showing past present future =>
      cases m with
      | undo =>
          cases past with
          | nil => rfl
          | cons p past => simp [isAvailable, move, toHistory]
      | redo =>
          cases future with
          | nil => rfl
          | cons f future => simp [isAvailable, move, toHistory]

@[simp, grind =] theorem add_toHistory : z.toHistory.add s = (z.add s).toHistory := by
  cases z with
  | nowhere => rfl
  | showing past present future =>
      have hpast : (past.reverse ++ present :: future).take (past.length + 1) =
          past.reverse ++ [present] := by
        rw [← List.length_reverse, List.take_length_add_append]
        rfl
      unfold History.add
      simp only [toHistory, hpast, List.getLast?_concat, Option.some.injEq, add]
      by_cases hs : s = present
      · rw [if_pos hs.symm, if_pos hs]
      · rw [if_neg (Ne.symm hs), if_neg hs]
        simp

@[simp, grind =] theorem serve_toHistory (r : Request) :
    z.toHistory.serve r = ((z.serve r).1, (z.serve r).2.toHistory) := by
  cases r with
  | add s => rw [History.serve, add_toHistory]; rfl
  | move m => rw [History.serve, move_toHistory]; rfl
  | isAvailable m => rw [History.serve, isAvailable_toHistory]; rfl

/-- Whatever is asked, a zipper written down replies as the zipper does, and stays the
    zipper written down. -/
@[simp] theorem converse_toHistory (rs : List Request) :
    converse History.serve z.toHistory rs =
      ((converse serve z rs).1, (converse serve z rs).2.toHistory) := by
  induction rs generalizing z with
  | nil => rfl
  | cons r rs ih =>
      simp only [converse, serve_toHistory, ih]

end Written

/-- The screen that is present. -/
def present? : Zipper → Option Screen
  | nowhere => none
  | showing _ present _ => some present

/-- No two neighbouring screens are the same. -/
def Distinct (z : Zipper) : Prop := z.toHistory.screens.IsChain (· ≠ ·)

section Laws

variable (z : Zipper)

@[simp] theorem present?_toHistory : z.toHistory.present? = z.present? := by
  cases z with
  | nowhere => rfl
  | showing past present future => simp [toHistory, History.present?, present?]

/-- The position is that of a screen, if there is any. -/
theorem position_toHistory :
    z.toHistory.position ≤ z.toHistory.screens.length ∧
      (z.toHistory.screens ≠ [] → 0 < z.toHistory.position) := by
  cases z with
  | nowhere => exact ⟨Nat.le_refl 0, fun h => absurd rfl h⟩
  | showing past present future =>
      refine ⟨?_, fun _ => Nat.succ_pos _⟩
      simp only [toHistory, List.length_append, List.length_reverse, List.length_cons]
      omega

/-- A move is available exactly if it leads to a screen. -/
theorem isAvailable_eq_isSome (m : Move) : z.isAvailable m = (z.move m).1.isSome := by
  cases z with
  | nowhere => rfl
  | showing past present future =>
      cases m with
      | undo => cases past <;> rfl
      | redo => cases future <;> rfl

/-- A move hands screens over, and the row of all of them stays what it is. -/
theorem screens_move (m : Move) : (z.move m).2.toHistory.screens = z.toHistory.screens := by
  cases z with
  | nowhere => rfl
  | showing past present future =>
      cases m with
      | undo => cases past <;> simp [move, toHistory]
      | redo => cases future <;> simp [move, toHistory]

variable {z}

theorem distinct_move (h : z.Distinct) (m : Move) : (z.move m).2.Distinct := by
  unfold Distinct
  rw [screens_move]
  exact h

/-- What is added is not what is present, and the screens before stay as they are. -/
theorem distinct_add (h : z.Distinct) (s : Screen) : (z.add s).Distinct := by
  cases z with
  | nowhere => exact List.isChain_singleton s
  | showing past present future =>
      have hpast : (past.reverse ++ [present]).IsChain (· ≠ ·) := by
        have hall : (past.reverse ++ [present] ++ future).IsChain (· ≠ ·) := by
          rw [List.append_assoc]
          exact h
        exact (List.isChain_append.mp hall).1
      by_cases hs : s = present
      · rw [Distinct, add, if_pos hs]
        exact hpast
      · rw [Distinct, add, if_neg hs]
        simp only [toHistory, List.reverse_cons]
        refine List.isChain_append.mpr ⟨hpast, List.isChain_singleton s, fun x hx y hy => ?_⟩
        rw [List.getLast?_concat, Option.mem_some_iff] at hx
        rw [List.head?_cons, Option.mem_some_iff] at hy
        rw [← hx, ← hy]
        exact Ne.symm hs

theorem distinct_converse (h : z.Distinct) (rs : List Request) :
    (converse serve z rs).2.Distinct := by
  induction rs generalizing z with
  | nil => exact h
  | cons r rs ih =>
      refine ih ?_
      cases r with
      | add s => exact distinct_add h s
      | move m => exact distinct_move h m
      | isAvailable m => exact h

/-- A move back that leads to a screen is undone by a move forth, which leads to the
    screen that has been left. -/
theorem redo_undo (h : (z.move .undo).1 ≠ none) :
    (z.move .undo).2.move .redo = (z.present?, z) := by
  cases z with
  | nowhere => exact absurd rfl h
  | showing past present future =>
      cases past with
      | nil => exact absurd rfl h
      | cons p past => rfl

/-- As many moves forth as there have been moves back lead through screens to where the
    moves back began. -/
theorem redo_of_undo (k : Nat) (h : Led (converse serve z (moves .undo k)).1) :
    let forth := converse serve (converse serve z (moves .undo k)).2 (moves .redo k)
    forth.2 = z ∧ Led forth.1 ∧ (0 < k → forth.1.getLast? = some (.moved z.present?)) := by
  induction k generalizing z with
  | zero =>
      exact ⟨rfl, fun reply hreply => absurd hreply List.not_mem_nil,
        fun hk => absurd hk (Nat.lt_irrefl 0)⟩
  | succ k ih =>
      rw [moves, List.replicate_succ] at h
      rcases List.forall_mem_cons.mp h with ⟨hleads, hrest⟩
      have hundo : (z.move .undo).1 ≠ none := fun hnone => hleads (congrArg Reply.moved hnone)
      have hsome : z.present? ≠ none := by
        cases z with
        | nowhere => exact absurd rfl hundo
        | showing past present future => exact Option.some_ne_none present
      rcases ih hrest with ⟨hback, hreplies, -⟩
      -- The last move forth is the one that undoes the first move back.
      have hlast : converse serve (z.move .undo).2 [.move .redo] = ([.moved z.present?], z) := by
        simp only [converse, serve, redo_undo hundo]
      have hmoves : moves .redo (k + 1) = moves .redo k ++ [.move .redo] := List.replicate_succ'
      have hboth : converse serve (converse serve (z.move .undo).2 (moves .undo k)).2
          (moves .redo (k + 1)) =
            ((converse serve (converse serve (z.move .undo).2 (moves .undo k)).2
              (moves .redo k)).1 ++ [.moved z.present?], z) := by
        have hstart : (converse serve (converse serve (z.move .undo).2 (moves .undo k)).2
            (moves .redo k)).2 = (z.move .undo).2 := hback
        rw [hmoves, converse_append, hstart, hlast]
      have hfirst : (converse serve z (moves .undo (k + 1))).2 =
          (converse serve (z.move .undo).2 (moves .undo k)).2 := rfl
      rw [hfirst, hboth]
      refine ⟨rfl, List.forall_mem_append.mpr ⟨hreplies, List.forall_mem_singleton.mpr ?_⟩,
        fun _ => List.getLast?_concat⟩
      exact fun hnone => hsome (Reply.moved.inj hnone)

end Laws

end Zipper

section Travelling

variable {σ : Type} {h : History} {c : Calculator σ}

/-- A calculator shows the screen that its history leads to, and if that leads to none
    it stays as it is. -/
theorem travel_of_recording (hc : c.session.history = .recording h) (m : Move)
    (havailable : h.isAvailable m = (h.move m).1.isSome) :
    c.travel m = match (h.move m).1 with
      | some s => (true, { c with session := { c.session with
          screen := s, history := .recording (h.move m).2 } })
      | none => (false, c) := by
  have hmove : c.session.history.move m = ((h.move m).1, .recording (h.move m).2) := by
    rw [hc]
    rfl
  have hask : c.session.history.isAvailable m = (h.move m).1.isSome := by
    rw [hc]
    exact havailable
  unfold Calculator.travel Session.travel
  rw [hask, hmove]
  rcases (h.move m).1 with _ | s <;> rfl

end Travelling

/-- A history that starts empty is a zipper, whatever is done with it. It gives the
    replies of a zipper. A move is available exactly if it leads to a screen; the position
    is always that of a screen, if there is any; no two neighbouring screens are the same;
    and as many moves forth as there have been moves back that led to a screen lead to the
    screen where they began, and to the very same history. A calculator that keeps the
    history travels exactly if the move is available. It shows the editor and the display
    of the screen the history leads to then, and it stays as it is otherwise. -/
theorem history_zips (rs : List Request) :
    let h := (converse serve .empty rs).2
    (converse serve .empty rs).1 = (converse Zipper.serve .nowhere rs).1 ∧
    (∀ m, h.isAvailable m = (h.move m).1.isSome) ∧
    (h.position ≤ h.screens.length ∧ (h.screens ≠ [] → 0 < h.position)) ∧
    h.screens.IsChain (· ≠ ·) ∧
    (∀ k, Led (converse serve h (moves .undo k)).1 →
      let forth := converse serve (converse serve h (moves .undo k)).2 (moves .redo k)
      forth.2 = h ∧ Led forth.1 ∧ (0 < k → forth.1.getLast? = some (.moved h.present?))) ∧
    ∀ (σ : Type) (c : Calculator σ) (m : Move), c.session.history = .recording h →
      (c.travel m).1 = h.isAvailable m ∧
      (∀ s, (h.move m).1 = some s → (c.travel m).2 = { c with session := { c.session with
        screen := s, history := .recording (h.move m).2 } }) ∧
      ((c.travel m).1 = false → (c.travel m).2 = c) := by
  intro h
  -- The history is a zipper flattened, and all that is said of it is read off the zipper.
  have hzip : converse serve .empty rs =
      ((converse Zipper.serve .nowhere rs).1, (converse Zipper.serve .nowhere rs).2.toHistory) :=
    Zipper.converse_toHistory .nowhere rs
  have hdistinct : (converse Zipper.serve .nowhere rs).2.Distinct :=
    Zipper.distinct_converse (z := .nowhere) List.isChain_nil rs
  generalize hz : (converse Zipper.serve .nowhere rs).2 = z at hzip hdistinct
  have hh : h = z.toHistory := congrArg Prod.snd hzip
  have havailable : ∀ m, h.isAvailable m = (h.move m).1.isSome := by
    intro m
    rw [hh, Zipper.isAvailable_toHistory, Zipper.move_toHistory, Zipper.isAvailable_eq_isSome]
  refine ⟨congrArg Prod.fst hzip, havailable, hh ▸ z.position_toHistory, hh ▸ hdistinct,
    fun k hback => ?_, fun σ c m hc => ?_⟩
  · rw [hh, Zipper.converse_toHistory] at hback
    rcases Zipper.redo_of_undo k hback with ⟨hend, hreplies, hlast⟩
    simp only [hh, Zipper.converse_toHistory, hend, Zipper.present?_toHistory]
    exact ⟨trivial, hreplies, hlast⟩
  · rw [travel_of_recording hc m (havailable m), havailable m]
    rcases (h.move m).1 with _ | s
    · exact ⟨rfl, fun s hs => absurd hs (Option.some_ne_none s).symm, fun _ => rfl⟩
    · refine ⟨rfl, fun t ht => ?_, fun hfalse => absurd hfalse Bool.true_eq_false.mp⟩
      rw [Option.some.inj ht]

/-- The screen of a text that is being typed. -/
def typed (text : String) : Screen := ⟨.ofText text, .empty⟩

/-- Adding the present screen again adds nothing, and forgets the screens after it all
    the same. -/
theorem history_zips_again :
    let rs : List Request := [.add (typed "1"), .add (typed "1+"), .add (typed "1+2"),
      .move .undo, .add (typed "1+")]
    let h := (converse serve .empty rs).2
    let c := Calculator.new {} (Session.new {} (.new .dec true) .standard (.recording h)) ()
    h = ⟨[typed "1", typed "1+"], 2⟩ ∧
      (Led (converse serve h (moves .undo 1)).1 ∧
        (converse serve (converse serve h (moves .undo 1)).2 (moves .redo 1)).2 = h) ∧
      c.session.history = .recording h ∧
      ((c.travel .undo).1 = true ∧ (c.travel .undo).2.session.screen = typed "1") ∧
      ((c.travel .redo).1 = false ∧ (c.travel .redo).2 = c) := by
  intro rs h c
  have hh : h = ⟨[typed "1", typed "1+"], 2⟩ := by decide +kernel
  rcases history_zips rs with ⟨-, -, -, -, hback, htravel⟩
  have hled : Led (converse serve h (moves .undo 1)).1 := by
    rw [hh]
    exact List.forall_mem_singleton.mpr (by decide +kernel)
  rcases htravel Unit c .undo rfl with ⟨hundo, hshown, -⟩
  rcases htravel Unit c .redo rfl with ⟨hredo, -, hstays⟩
  have hleads : h.isAvailable .undo = true ∧ (h.move .undo).1 = some (typed "1") ∧
      h.isAvailable .redo = false := by
    rw [hh]
    exact ⟨rfl, rfl, rfl⟩
  refine ⟨hh, ⟨hled, (hback 1 hled).1⟩, rfl, ⟨hundo.trans hleads.1, ?_⟩,
    hredo.trans hleads.2.2, hstays (hredo.trans hleads.2.2)⟩
  rw [hshown _ hleads.2.1]

end History

end ExactCalc
