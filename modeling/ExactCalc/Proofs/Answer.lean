import ExactCalc.Proofs.Attempt
import ExactCalc.Proofs.Calculation.Answered

/-!
# The Last Answer

What becomes of the constants when a result is kept as the last answer.

A displayed result is saved under one fixed name, so the names it mentions are the
only ones that anything new is said of. Those names have no value, and a name
without a value uses nothing; so no way leads on from them, and whatever cycle there
is now has to be the one step from the last answer to itself. That step is there if
and only if the result mentions the name of the last answer.

Such a result exists. As long as nothing has been displayed, the last answer is a
symbol like any other, and a calculation that has it left in its result defines it
through itself.

## Main definitions

* `Exact.Mentions`: A text that is read as a tree with a name in it.
* `Session.unvarying`, `Session.displaying`: Moments without change, and the constants
  once a result is displayed.

## Theorems

* `transGen_of_sinks`: New edges that lead nowhere make no new way.
* `uses_keepAnswer_iff`: What each name uses after an answer has been kept.
* `answer_circular_iff`: The constants stay free of cycles unless the result
  mentions the last answer.
-/

namespace ExactCalc

open Relation (TransGen)

/-- Where the edges that are new lead to points with no edges, no way from a point to
    one that has an edge uses them. -/
theorem transGen_of_sinks {α : Type} {R R' : α → α → Prop} {a x z w : α}
    (hsame : ∀ x y, x ≠ a → R' x y → R x y) (hsink : ∀ y, R' a y → ∀ w, ¬R' y w)
    (h : TransGen R' x z) (hz : R' z w) : TransGen R x z := by
  induction h using TransGen.head_induction_on with
  | @single x hxz =>
      have hx : x ≠ a := fun hx => hsink z (hx ▸ hxz) w hz
      exact .single (hsame x z hx hxz)
  | @head x y hxy hyz ih =>
      rcases TransGen.head'_iff.mp hyz with ⟨v, hyv, -⟩
      have hx : x ≠ a := fun hx => hsink y (hx ▸ hxy) v hyv
      exact .head (hsame x y hx hxy) ih

namespace Exact

/-- A text is read as a tree with a name in it. -/
def Mentions (bound : Nat) (text name : String) : Prop :=
  ∃ tree, parse bound text.toList = .ok tree ∧ name ∈ tree.names

/-- Nothing is mentioned in a text that is empty. -/
theorem not_mentions_empty (bound : Nat) (name : String) : ¬Mentions bound "" name := by
  rintro ⟨tree, htree, -⟩
  have hparse : parse bound [] = .error (.unreadable .malformed none) := by
    rw [parse, Token.tokenize_nil]
    rfl
  rw [show "".toList = [] from rfl, hparse] at htree
  cases htree

/-- A text without blanks is no blank text, unless it is empty. -/
theorem Worded.isBlankText {P : String → Prop} {text : String} (h : Worded P text.toList)
    (hne : text.toList ≠ []) : Exact.isBlankText text = false := by
  unfold Exact.isBlankText
  rcases htext : text.toList with _ | ⟨c, cs⟩
  · exact absurd htext hne
  · rw [List.all_cons, h.solid c (by rw [htext]; exact List.mem_cons_self), Bool.false_and]

section Keeping

variable {registry : Registry} {bound : Nat} {text name : String} {s : Session}

/-- The value of a name after an answer has been kept. -/
theorem value_keepAnswer (s : Session) (text name : String) :
    ((s.keepAnswer text).1.registry.find? name).map (·.value) =
      if Variable.answerName = name then some text
      else (s.registry.find? name).map (·.value) := by
  unfold Session.keepAnswer
  simp only
  split
  · rename_i hlast
    rcases hfind : s.registry.find? Variable.answerName with _ | v
    · rw [hfind] at hlast
      exact absurd hlast Bool.false_ne_true
    rw [hfind, Option.any_some, beq_iff_eq] at hlast
    split
    · rename_i hname
      rw [← hname, hfind, Option.map_some, hlast]
    · rfl
  · rw [Registry.find?_save]
    by_cases hname : Variable.answerName = name
    · rw [if_pos hname, if_pos (show (Variable.answer text).name = name from hname)]
      rfl
    · rw [if_neg hname, if_neg (show (Variable.answer text).name ≠ name from hname)]

theorem definition?_eq (registry : Registry) (bound : Nat) (name : String) :
    definition? registry bound name =
      ((registry.find? name).map (·.value)).bind fun value =>
        if isBlankText value then none else (parse bound value.toList).toOption := by
  unfold definition?
  rcases registry.find? name with _ | v <;> rfl

/-- Keeping an answer that is not blank gives its name the tree of the answer, and leaves
    all other definitions alone. -/
theorem uses_keepAnswer_iff {x y : String} (hvalue : isBlankText text = false) :
    Uses (s.keepAnswer text).1.registry bound x y ↔
      if Variable.answerName = x then Mentions bound text y else Uses s.registry bound x y := by
  unfold Uses Mentions
  rw [definition?_eq, value_keepAnswer]
  split
  · simp only [Option.bind_some, hvalue, Bool.false_eq_true, if_false]
    rcases parse bound text.toList with e | tree <;>
      simp only [Except.toOption, reduceCtorEq, false_and, exists_false, Option.some.injEq,
        Except.ok.injEq]
  · rw [← definition?_eq]

/-- Keeping an answer whose names have no value makes a circular definition exactly if
    the answer mentions its own name. -/
theorem circular_keepAnswer_iff (hvalue : isBlankText text = false)
    (hsound : ∀ x, ¬Circular s.registry bound x)
    (hnames : ∀ name, Mentions bound text name → Valueless s.registry name) :
    (∃ x, Circular (s.keepAnswer text).1.registry bound x) ↔
      Mentions bound text Variable.answerName := by
  constructor
  · rintro ⟨x, hcircular⟩
    by_contra hmention
    -- What the answer mentions is another name without a value, which uses nothing.
    have hsink : ∀ y, Uses (s.keepAnswer text).1.registry bound Variable.answerName y →
        ∀ w, ¬Uses (s.keepAnswer text).1.registry bound y w := by
      intro y hy w
      rw [uses_keepAnswer_iff hvalue, if_pos rfl] at hy
      have hne : Variable.answerName ≠ y := fun hname => hmention (hname ▸ hy)
      rw [uses_keepAnswer_iff hvalue, if_neg hne]
      rintro ⟨tree, hdef, -⟩
      rw [definition?_of_valueless (hnames y hy)] at hdef
      cases hdef
    rcases TransGen.head'_iff.mp hcircular with ⟨w, hxw, -⟩
    refine hsound x (transGen_of_sinks (fun y z hy huses => ?_) hsink hcircular hxw)
    rw [uses_keepAnswer_iff hvalue, if_neg (Ne.symm hy)] at huses
    exact huses
  · intro hmention
    refine ⟨Variable.answerName, .single ?_⟩
    rw [uses_keepAnswer_iff hvalue, if_pos rfl]
    exact hmention

/-- Where constants are defined through names without definitions only, none of them is
    circular. -/
theorem not_circular_of_shallow
    (h : ∀ x ∈ registry.names, ∀ tree ∈ definition? registry bound x, ∀ y ∈ tree.names,
      definition? registry bound y = none) (x : String) : ¬Circular registry bound x := by
  intro hcircular
  rcases TransGen.head'_iff.mp hcircular with ⟨y, ⟨tree, hdef, hy⟩, hyx⟩
  have hnone := h x (mem_names_of_definition? hdef) tree hdef y hy
  rcases Relation.ReflTransGen.cases_head hyx with hyx | ⟨z, ⟨tree', hdef', -⟩, -⟩
  · rw [hyx, hdef] at hnone
    cases hnone
  · rw [hdef'] at hnone
    cases hnone

end Keeping

end Exact

namespace Session

open Calculation (Moment course start)
open Exact (Circular Mentions Valueless)

section Reacting

variable (s : Session) (next : Nat) (stamp : Stamp) (old : Display)

/-- A displayed result without blanks is kept as it is. -/
theorem react_result {text : String} (hsolid : ∀ c ∈ text.toList, Text.isBlank c = false)
    (hne : text.toList ≠ []) :
    s.react next ⟨stamp, .displayChanged ⟨old, .result text⟩⟩ = s.keepAnswer text := by
  have hshown : (Display.result text).result? = some text := by
    unfold Display.result? Display.result
    simp only [Text.trim_eq_self hsolid, String.ofList_toList]
    rw [if_pos]
    rw [Bool.true_and, List.isEmpty_eq_false_iff.mpr hne]
    rfl
  unfold react
  simp only [hshown]

/-- A display without text is not kept. -/
theorem react_empty : s.react next ⟨stamp, .displayChanged ⟨old, .result ""⟩⟩ = (s, []) := rfl

end Reacting

/-- Keeping a result as the last answer makes a circular definition exactly if the result
    mentions the last answer. Let no constant be circular, and let a calculation of any
    text publish a result, at whatever moments its steps are taken and whether or not it
    has started over as a simplification. Once the display shows that result, a circular
    constant exists if and only if the name of the last answer stands in the result, and
    it only stands there if the last answer has had no value. In all other cases no
    attempt at any expression fails of a circular definition. -/
theorem answer_circular_iff (settings : Settings) (registry : Registry) (r : Request)
    (moments : List (Moment (List Message))) (res : CalculationResult) (s : Session) (next : Nat)
    (stamp : Stamp) (old : Display)
    (hsound : ∀ x, ¬Circular registry settings.depthBound x)
    (hmoments : ∀ m ∈ moments, m.engine = Exact.engine settings registry)
    (hres : .calculationResult res ∈ (course r (start r) moments).events)
    (hs : s.registry = registry) :
    let kept := (s.react next ⟨stamp, .displayChanged ⟨old, .result res.text⟩⟩).1.registry
    ((∃ x, Circular kept settings.depthBound x) ↔
      Mentions settings.depthBound res.text Variable.answerName) ∧
    (Mentions settings.depthBound res.text Variable.answerName →
      Valueless registry Variable.answerName) ∧
    (¬Mentions settings.depthBound res.text Variable.answerName →
      ∀ (expression : String) (op : Operation) (cancelled : Bool) (messages : List Message)
        (x : String),
        ((Exact.engine settings kept).attempt expression op cancelled messages).reply ≠
          .failure (.arithmetic (.circularDefinition x))) := by
  subst hs
  intro kept
  -- One attempt has rendered the result, so the names in it have no value.
  rcases (Calculation.told_course r moments).answer.attempt hres with ⟨m, hm, hreply⟩
  rw [hmoments m hm] at hreply
  have hworded := Exact.worded_of_attempt hreply
  have hnames : ∀ name, Mentions settings.depthBound res.text name →
      Valueless s.registry name := by
    rintro name ⟨tree, htree, hname⟩
    have hnamed := hworded.named settings.depthBound
    rw [htree] at hnamed
    exact hnamed name hname
  have hcircular : (∃ x, Circular kept settings.depthBound x) ↔
      Mentions settings.depthBound res.text Variable.answerName := by
    by_cases hempty : res.text = ""
    · have hkept : kept = s.registry := by simp only [kept, hempty, react_empty]
      rw [hkept, hempty]
      exact iff_of_false (fun ⟨x, hx⟩ => hsound x hx) (Exact.not_mentions_empty _ _)
    · have hne : res.text.toList ≠ [] := fun h => hempty (String.toList_eq_nil_iff.mp h)
      have hkept : kept = (s.keepAnswer res.text).1.registry := by
        simp only [kept, react_result s next stamp old hworded.solid hne]
      rw [hkept]
      exact Exact.circular_keepAnswer_iff (hworded.isBlankText hne) hsound hnames
  refine ⟨hcircular, hnames _, fun hmention expression op cancelled messages x hfailure => ?_⟩
  exact hmention (hcircular.mp ⟨x, Exact.circular_of_attempt hfailure⟩)

/-- Moments between which nothing else goes on. -/
def unvarying (registry : Registry) : List (Moment (List Message)) :=
  List.replicate 4 ⟨Exact.engine {} registry, [], registry, .dec, false⟩

/-- The constants once a result is displayed. -/
def displaying (registry : Registry) (text : String) : Registry :=
  ((new {} (.new .dec true) registry .mute).react 1
    ⟨⟨1, 1⟩, .displayChanged ⟨.empty, .result text⟩⟩).1.registry

/-- The first calculation of all, if its text mentions the last answer, leaves that as a
    symbol; displaying its result makes the last answer circular, and calculating that
    fails. -/
theorem answer_circular_first :
    (∀ x, ¬Circular .standard 512 x) ∧
      (course ⟨1, .numeric, "ans+1"⟩ (.preparing .numeric) (unvarying .standard)).events =
        [.calculationResult ⟨.simplify, "ans+1", "ans+1"⟩] ∧
      Circular (displaying .standard "ans+1") 512 "ans" ∧
      (course ⟨4, .numeric, "ans"⟩ (.preparing .numeric)
          (unvarying (displaying .standard "ans+1"))).events =
        [.calculationFailed
          ⟨.numeric, "ans", .arithmetic, "définition circulaire : ans", none⟩] := by
  refine ⟨Exact.not_circular_of_shallow (by decide +kernel), by decide +kernel, .single ?_,
    by decide +kernel⟩
  exact ⟨.add (.var "ans") (.rat 1), by decide +kernel, by decide⟩

/-- A constant that is defined through a name without a value. -/
def doubled : Registry := ⟨[.plain "a" "2*b", .circleRatio]⟩

/-- A sum with two symbols left in it is kept without harm. -/
theorem answer_circular_sum :
    (∀ x, ¬Circular doubled 512 x) ∧
      .calculationResult ⟨.simplify, "a+3*c", "2*b+3*c"⟩ ∈
        (course ⟨1, .numeric, "a+3*c"⟩ (.preparing .numeric) (unvarying doubled)).events ∧
      ¬Mentions 512 "2*b+3*c" "ans" ∧
      ∀ x, ¬Circular (displaying doubled "2*b+3*c") 512 x := by
  have hsound : ∀ x, ¬Circular doubled 512 x := Exact.not_circular_of_shallow (by decide +kernel)
  have hmoments : ∀ m ∈ unvarying doubled, m.engine = Exact.engine {} doubled := by
    intro m hm
    rw [List.eq_of_mem_replicate hm]
  have hres : .calculationResult ⟨.simplify, "a+3*c", "2*b+3*c"⟩ ∈
      (course ⟨1, .numeric, "a+3*c"⟩ (.preparing .numeric) (unvarying doubled)).events := by
    decide +kernel
  have hmention : ¬Mentions 512 "2*b+3*c" "ans" := by
    rintro ⟨tree, htree, hname⟩
    have hparse : Exact.parse 512 "2*b+3*c".toList =
        .ok (.add (.mul (.rat 2) (.var "b")) (.mul (.rat 3) (.var "c"))) := by decide +kernel
    rw [hparse, Except.ok.injEq] at htree
    rw [← htree] at hname
    exact absurd hname (by decide)
  have hiff := (answer_circular_iff {} doubled ⟨1, .numeric, "a+3*c"⟩ (unvarying doubled)
    ⟨.simplify, "a+3*c", "2*b+3*c"⟩ (new {} (.new .dec true) doubled .mute) 1 ⟨1, 1⟩ .empty
    hsound hmoments hres rfl).1
  exact ⟨hsound, hres, hmention, fun x hx => hmention (hiff.mp ⟨x, hx⟩)⟩

end Session

end ExactCalc
