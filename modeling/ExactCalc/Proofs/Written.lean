import ExactCalc.Proofs.Evaluation
import ExactCalc.Proofs.Parsing

/-!
# Names in a Rendered Text

What the names are in a text that the engine has rendered.

A text read back has no names but those of the tree it was written from. The text of
a tree spells its names between signs, so each of them is cut out whole, and the
only letters beside them are those of a function. The text of a decimal number has
no letters at all. Neither has a blank, so nothing is lost when the text is kept
without the blanks around it.

## Main definitions

* `Token.Spelled`: A text that spells tokens whose names have a property.
* `Exact.Worded`: A text that reads as a tree whose names have a property.

## Theorems

* `spelled_write`: The text of a tree spells the names in the tree.
* `worded_readable`, `worded_decimal`: The two kinds of text.
* `ends_render`: What is rendered.
-/

namespace ExactCalc

namespace Token

/-- A text that spells tokens whose names have a property. -/
def Spelled (P : String → Prop) (cs : List Char) : Prop :=
  ∃ ts, Spells cs ts ∧ ∀ t ∈ ts, t.NamedBy P

section Spelling

variable {P : String → Prop} {as bs cs : List Char} {c : Char} {t : Token}

theorem spelled_nil : Spelled P [] := ⟨[], .nil, List.forall_mem_nil _⟩

theorem Spelled.sign (h : Spelled P cs) (ht : ofChar? c = some t) : Spelled P (c :: cs) := by
  rcases h with ⟨ts, hs, hts⟩
  exact ⟨t :: ts, .sign ht hs, List.forall_mem_cons.mpr ⟨namedBy_ofChar? ht, hts⟩⟩

theorem Spelled.append (ha : Spelled P as) (hb : Spelled P bs) (hstop : Stops bs) :
    Spelled P (as ++ bs) := by
  rcases ha with ⟨ss, has, hss⟩
  rcases hb with ⟨ts, hbs, hts⟩
  exact ⟨ss ++ ts, has.append hbs hstop, List.forall_mem_append.mpr ⟨hss, hts⟩⟩

theorem Spelled.joined (ha : Spelled P as) (hb : Spelled P bs) (ht : ofChar? c = some t) :
    Spelled P (as ++ c :: bs) :=
  ha.append (hb.sign ht) (stops_cons bs ht)

/-- A text behind a minus sign. -/
theorem Spelled.of_minus (h : Spelled P ('-' :: cs)) : Spelled P cs := by
  rcases h with ⟨ts, hs, hts⟩
  rcases hs.of_minus with ⟨ts', rfl, hs'⟩
  exact ⟨ts', hs', (List.forall_mem_cons.mp hts).2⟩

theorem spelled_natText (n : Nat) : Spelled P (Expr.natText n) :=
  ⟨[.num n], Expr.spells_natText n, List.forall_mem_singleton.mpr (namedBy_num n)⟩

theorem spelled_name {w : List Char} (hc : isNameStart c = true)
    (hw : ∀ d ∈ w, isNameChar d = true)
    (hP : ∀ name, Expr.IsIdentifier name → name.toList = c :: w → P name) :
    Spelled P (c :: w) :=
  ⟨_, spells_name hc hw, List.forall_mem_singleton.mpr (namedBy_ofName hc hw hP)⟩

/-- Nothing that is spelled is blank. -/
theorem Spells.not_blank {ts : List Token} (h : Spells cs ts) :
    ∀ c ∈ cs, Text.isBlank c = false := by
  induction h with
  | nil => exact List.forall_mem_nil _
  | @sign c t cs ts ht h ih =>
      have hall : ∀ c ∈ signs, Text.isBlank c = false := Text.forall_of_all (by decide)
      exact List.forall_mem_cons.mpr ⟨hall c (mem_signs_of_ofChar? ht), ih⟩
  | digits n hstop h ih =>
      refine List.forall_mem_append.mpr ⟨fun c hc => ?_, ih⟩
      have hdigit :=
        Radix.isDigit_of_accepts (by decide) (Numeral.accepts_of_mem_digits .dec n c hc)
      exact Text.isBlank_of_isNameChar (Text.isNameChar_of_isDigit hdigit)
  | @name c w cs ts hc hw hstop h ih =>
      refine List.forall_mem_append.mpr ⟨List.forall_mem_cons.mpr ⟨?_, fun d hd => ?_⟩, ih⟩
      · exact Text.isBlank_of_isNameChar (Text.isNameChar_of_isNameStart hc)
      · exact Text.isBlank_of_isNameChar (hw d hd)

end Spelling

end Token

namespace Expr

open Token (Spelled)

section Writing

variable {P : String → Prop} {text : List Char} {left right : List Char × Level}

theorem spelled_bracketed (h : Spelled P text) : Spelled P (bracketed text) :=
  (h.joined Token.spelled_nil rfl).sign rfl

theorem spelled_operand (h : Spelled P left.1) (required : Level) :
    Spelled P (operandText required left) := by
  unfold operandText
  split
  · exact spelled_bracketed h
  · exact h

theorem spelled_intText (n : Int) : Spelled P (intText n) := by
  unfold intText
  split
  · exact (Token.spelled_natText _).sign rfl
  · exact Token.spelled_natText _

theorem spelled_rat (q : Rat) : Spelled P (writeRat q).1 := by
  unfold writeRat
  split
  · exact spelled_intText _
  · exact (spelled_intText _).joined (Token.spelled_natText _) rfl

theorem spelled_scaled (c : Rat) (h : Spelled P text) : Spelled P (writeScaled c text).1 := by
  have hcore :
      Spelled P (if c.num.natAbs = 1 then text else natText c.num.natAbs ++ '*' :: text) := by
    split
    · exact h
    · exact (Token.spelled_natText _).joined h rfl
  have hsigned : Spelled P ((if c.num < 0 then ['-'] else []) ++
      if c.num.natAbs = 1 then text else natText c.num.natAbs ++ '*' :: text) := by
    by_cases hneg : c.num < 0
    · rw [if_pos hneg]
      exact hcore.sign rfl
    · rw [if_neg hneg]
      exact hcore
  unfold writeScaled
  simp only
  split
  · exact Token.spelled_natText 0
  · split
    · exact hsigned
    · exact hsigned.joined (Token.spelled_natText _) rfl

theorem spelled_sum {sign flipped : Char} {t t' : Token} (ha : Spelled P left.1)
    (hb : Spelled P right.1) (hsign : Token.ofChar? sign = some t)
    (hflipped : Token.ofChar? flipped = some t') :
    Spelled P (writeSum left right sign flipped).1 := by
  have hleft := spelled_operand ha .sum
  unfold writeSum
  simp only
  split
  · exact hleft.joined (spelled_bracketed hb) hsign
  · split
    · -- The sign of the second operand is lost, and what stands behind it is spelled as before.
      rename_i rest hright
      rw [hright] at hb
      exact hleft.joined hb.of_minus hflipped
    · exact hleft.joined hb hsign

/-- The text of a tree spells the names in the tree. -/
theorem spelled_write {e : Expr} (h : e.NamedBy fun name => IsIdentifier name ∧ P name) :
    Spelled P e.write.1 := by
  induction e with
  | rat q => exact spelled_rat q
  | pi => exact Token.spelled_nil.sign rfl
  | var name =>
      rcases h name List.mem_cons_self with ⟨⟨⟨c, w, hname, hc, hw⟩, -⟩, hP⟩
      rw [write, hname]
      -- The letters of a name spell that name and no other.
      refine Token.spelled_name hc hw fun name' _ hname' => ?_
      rw [← hname, String.toList_inj] at hname'
      exact hname' ▸ hP
  | sqrt x ih =>
      simp only [write]
      split
      · exact (ih h).sign rfl
      · exact (spelled_bracketed (ih h)).sign rfl
  | abs x ih =>
      have habs : Spelled P ['a', 'b', 's'] := by
        refine Token.spelled_name (by decide) (Text.forall_of_all (by decide))
          fun name hname htext => ?_
        -- The name of a function is no identifier.
        exact absurd (String.toList_inj.mp htext) hname.2.2.2
      exact habs.append (spelled_bracketed (ih h)) (Token.stops_cons _ rfl)
  | pow a b iha ihb =>
      have hab := (namedBy_pair rfl).mp h
      exact (spelled_operand (iha hab.1) _).joined (spelled_operand (ihb hab.2) _) rfl
  | add a b iha ihb =>
      have hab := (namedBy_pair rfl).mp h
      exact spelled_sum (iha hab.1) (ihb hab.2) rfl rfl
  | sub a b iha ihb =>
      have hab := (namedBy_pair rfl).mp h
      rw [write]
      split
      · exact (spelled_operand (ihb hab.2) _).sign rfl
      · exact spelled_sum (iha hab.1) (ihb hab.2) rfl rfl
  | mul a b iha ihb =>
      have hab := (namedBy_pair rfl).mp h
      simp only [write]
      split
      · exact spelled_scaled _ (ihb hab.2)
      · exact (spelled_operand (iha hab.1) _).joined (spelled_operand (ihb hab.2) _) rfl
  | div a b iha ihb =>
      have hab := (namedBy_pair rfl).mp h
      exact (spelled_operand (iha hab.1) _).joined (spelled_operand (ihb hab.2) _) rfl

end Writing

end Expr

namespace Decimal

/-- A character that decimal texts are made of. -/
def isFigure (c : Char) : Bool := c.isDigit || c == '.' || c == '-'

theorem figures_repr (n : Nat) : ∀ c ∈ n.repr.toList, isFigure c = true := by
  intro c hc
  rw [Nat.toList_repr] at hc
  rw [isFigure, Nat.isDigit_of_mem_toDigits (by decide) (by decide) hc, Bool.true_or, Bool.true_or]

theorem figures_ofScaled (n : Int) (places : Nat) :
    ∀ c ∈ ofScaled n places, isFigure c = true := by
  have hsign : ∀ c ∈ if n < 0 then ['-'] else [], isFigure c = true := by
    split
    · exact List.forall_mem_singleton.mpr (by decide)
    · exact List.forall_mem_nil _
  have hwhole := List.forall_mem_append.mpr ⟨hsign, figures_repr (n.natAbs / scale places)⟩
  unfold ofScaled
  simp only
  split
  · exact hwhole
  · refine List.forall_mem_append.mpr ⟨hwhole, List.forall_mem_cons.mpr ⟨by decide, ?_⟩⟩
    refine List.forall_mem_append.mpr ⟨fun c hc => ?_, figures_repr _⟩
    rw [List.eq_of_mem_replicate hc]
    decide

theorem figures_trim {cs : List Char} (h : ∀ c ∈ cs, isFigure c = true) :
    ∀ c ∈ trim cs, isFigure c = true := by
  have hdrop : ∀ (d : Char) (cs : List Char), dropTrailing d cs ⊆ cs := by
    intro d cs c hc
    exact List.mem_reverse.mp ((List.dropWhile_sublist _).subset (List.mem_reverse.mp hc))
  unfold trim
  simp only
  split
  · split
    · exact List.forall_mem_singleton.mpr (by decide)
    · exact fun c hc => h c (hdrop '0' cs (hdrop '.' _ hc))
  · exact h

theorem figures_ofRat (q : Rat) (places : Nat) : ∀ c ∈ (ofRat q places).1, isFigure c = true := by
  unfold ofRat
  split
  · split
    · exact figures_trim (figures_ofScaled _ _)
    · exact figures_trim (figures_ofScaled _ _)
  · exact figures_trim (figures_ofScaled _ _)

end Decimal

namespace FixedPoint

section Values

variable (places : Nat)

theorem yields_sqrt (x : Int) : Yields Stop.Plain (fun _ => True) (sqrt places x) := by
  unfold sqrt
  split
  · exact rfl
  · exact trivial

theorem yields_power (b n : Int) : Yields Stop.Plain (fun _ => True) (power places b n) := by
  unfold power
  simp only
  split
  · split
    · exact rfl
    · exact trivial
  · exact trivial

theorem yields_powerRat (q : Rat) (n : Int) :
    Yields Stop.Plain (fun _ => True) (powerRat places q n) := by
  unfold powerRat
  split
  · exact rfl
  · split
    · exact rfl
    · exact trivial

theorem yields_div (x y : Int) : Yields Stop.Plain (fun _ => True) (div places x y) := by
  unfold div
  split
  · exact rfl
  · exact trivial

/-- A calculation that may break down does nothing else. -/
theorem yields_ofChecked {α : Type} (r : Checked α) :
    Yields Stop.Plain (fun _ => True) (Stop.ofChecked r) := by
  rcases r with o | a
  · exact trivial
  · exact trivial

theorem yields_moderate (n : Int) : Yields Stop.Plain (fun _ => True) (moderate n) := by
  refine (yields_ofChecked (Expr.wholeExponent n)).bind fun m _ => ?_
  rcases m with _ | m
  · exact rfl
  · exact trivial

variable {read : Expr → Except Stop Int}
  (hread : ∀ e, Yields Stop.Plain (fun _ => True) (read e))

include hread

theorem yields_exponent (e : Expr) :
    Yields Stop.Plain (fun _ => True) (exponent places read e) := by
  unfold exponent
  split
  · split
    · exact (yields_moderate _).map fun _ _ => trivial
    · split
      · exact (yields_moderate _).map fun _ _ => trivial
      · exact rfl
  · rcases (hread e).cases with ⟨err, he, hplain⟩ | ⟨n, hn, -⟩
    · rw [he]
      exact hplain
    · rw [hn]
      simp only
      split
      · exact (yields_moderate _).map fun _ _ => trivial
      · exact rfl

/-- Working out a value finds no circular definition, if reading the exponents finds
    none. -/
theorem yields_valueWith (e : Expr) :
    Yields Stop.Plain (fun _ => True) (valueWith places read e) := by
  induction e with
  | rat => exact trivial
  | pi => exact yields_ofChecked _
  | var name => exact rfl
  | add a b iha ihb | sub a b iha ihb | mul a b iha ihb =>
      exact iha.bind fun _ _ => ihb.map fun _ _ => trivial
  | div a b iha ihb => exact iha.bind fun x _ => ihb.bind fun y _ => yields_div places x y
  | abs x ih => exact ih.map fun _ _ => trivial
  | sqrt x ih =>
      rw [valueWith]
      rcases x.number? with _ | q
      · exact ih.bind fun n _ => yields_sqrt places n
      · simp only [rootOf]
        split
        · exact rfl
        · exact yields_ofChecked _
  | pow a b iha _ =>
      rw [valueWith]
      refine (yields_ofChecked b.simplify).bind fun b _ => ?_
      refine (yields_exponent places hread b).bind fun n _ => ?_
      rcases n with ⟨n, _ | _⟩
      · rcases a.number? with _ | q
        · exact iha.bind fun x _ => yields_power places x n
        · exact yields_powerRat places q n
      · have hroot : Yields Stop.Plain (fun _ => True) ((valueWith places read a).bind fun x =>
            (sqrt places x).bind fun x => power places x n) :=
          iha.bind fun x _ => (yields_sqrt places x).bind fun x _ => yields_power places x n
        rcases a.number? with _ | q <;> exact hroot

end Values

theorem yields_value (places : Nat) (cancelled : Bool) (e : Expr) :
    Yields Stop.Plain (fun _ => True) (value places cancelled e) := by
  have hupTo : ∀ height e, Yields Stop.Plain (fun _ => True) (valueUpTo places height e) := by
    intro height
    induction height with
    | zero => exact yields_valueWith places fun _ => rfl
    | succ height ih => exact yields_valueWith places ih
  unfold value
  split
  · exact rfl
  · exact hupTo _ e

end FixedPoint

namespace Exact

section Wording

variable {P : String → Prop} {text : List Char}

/-- A text in which nothing is blank, and whose tree has no names but those with a
    property. -/
structure Worded (P : String → Prop) (text : List Char) : Prop where
  solid : ∀ c ∈ text, Text.isBlank c = false
  named : ∀ bound, Yields (·.Before (Token.limit 0 text)) (Expr.NamedBy P) (parse bound text)

/-- The names in the text of a tree are those in the tree. -/
theorem worded_readable {e : Expr}
    (h : e.NamedBy fun name => Expr.IsIdentifier name ∧ P name) : Worded P e.readable.toList := by
  rcases Expr.spelled_write h with ⟨ts, hs, hts⟩
  rw [Expr.readable, String.toList_ofList]
  refine ⟨hs.not_blank, fun bound => yields_parse_of_tokens ?_ fun _ he => he.before _⟩
  rw [Token.tokenize_of_spells hs]
  exact hts

/-- There are no names in the text of a decimal number. -/
theorem worded_decimal (h : ∀ c ∈ text, Decimal.isFigure c = true) : Worded P text := by
  refine ⟨fun c hc => ?_, fun bound => yields_parse fun name hname hsub => ?_⟩
  · have hfigure := h c hc
    rw [Decimal.isFigure, Bool.or_eq_true, Bool.or_eq_true, beq_iff_eq, beq_iff_eq] at hfigure
    rcases hfigure with (hc | rfl) | rfl
    · exact Text.isBlank_of_isNameChar (Text.isNameChar_of_isDigit hc)
    · decide
    · decide
  · -- A name starts with a letter or an underscore, and no figure is one.
    rcases hname.1 with ⟨c, w, htext, hc, -⟩
    have hfigure := h c (hsub (by rw [htext]; exact List.mem_cons_self))
    have hall := Text.of_ascii (fun c => !isNameStart c || !Decimal.isFigure c) (by decide +kernel)
      (Text.toNat_lt_of_isNameChar (Text.isNameChar_of_isNameStart hc))
    rw [hc, hfigure] at hall
    exact absurd hall (by decide)

/-- What is said of a decimal text is said of every text that is worked out. -/
theorem ends_numericText (places : Nat) (cancelled : Bool) (e : Expr) :
    Ends (numericText places cancelled e)
      (Yields Stop.Plain fun text => Worded P text.toList) := by
  have hpure : ∀ cs : List Char, (∀ c ∈ cs, Decimal.isFigure c = true) →
      Ends (pure (String.ofList cs)) (Yields Stop.Plain fun text => Worded P text.toList) := by
    intro cs hcs
    refine ends_pure (worded_decimal ?_)
    rw [String.toList_ofList]
    exact hcs
  have hkeep : ∀ m : Message, Ends (keep m : Rendering Unit) (Yields Stop.Plain fun _ => True) :=
    fun _ _ => trivial
  unfold numericText
  rcases e.firstVariable? with _ | name
  · rcases e.number? with _ | q
    · have hvalue : Ends (lift (FixedPoint.value (places + FixedPoint.guardPlaces) cancelled e))
          (Yields Stop.Plain fun _ => True) := fun _ => FixedPoint.yields_value _ _ _
      exact ends_bind hvalue (fun n _ => ends_bind (hkeep _)
        (fun _ _ => hpure _ (Decimal.figures_trim (Decimal.figures_ofScaled _ _)))
        fun _ he => he) fun _ he => he
    · have hfigures := Decimal.figures_ofRat q places
      simp only
      rcases hq : Decimal.ofRat q places with ⟨text, exact⟩
      rw [hq] at hfigures
      cases exact with
      | true => exact hpure text hfigures
      | false => exact ends_bind (hkeep _) (fun _ _ => hpure text hfigures) fun _ he => he
  · exact ends_throw rfl

/-- Rendering a tree gives a text without other names, or fails of something else than
    a circular definition. -/
theorem ends_render {d : Deferred} (cancelled : Bool)
    (hd : d.tree.NamedBy fun name => Expr.IsIdentifier name ∧ P name) :
    Ends (render d cancelled) (Yields Stop.Plain fun text => Worded P text.toList) := by
  have hcheck : Ends (toRendering (check cancelled)) (Yields Stop.Plain fun _ => True) := by
    intro t
    cases cancelled with
    | true => exact rfl
    | false => exact trivial
  have hdivided : Ends (lift (Stop.ofChecked d.tree.dividesByZero))
      (Yields Stop.Plain fun _ => True) := ends_lift (FixedPoint.yields_ofChecked _)
  have hsimple : Ends (lift (Stop.ofChecked d.tree.simplify))
      (Yields Stop.Plain (·.NamedBy fun name => Expr.IsIdentifier name ∧ P name)) := by
    refine ends_lift ?_
    rcases hs : d.tree.simplify with o | s
    · exact trivial
    · exact Expr.namedBy_simplify hs hd
  refine ends_bind hcheck (fun _ _ => ?_) fun _ he => he
  refine ends_bind hdivided (fun _ _ => ends_stop _ (fun _ => rfl) fun _ => ?_) fun _ he => he
  refine ends_bind hsimple (fun e he => ?_) fun _ he => he
  refine ends_bind hcheck (fun _ _ => ?_) fun _ he => he
  rcases d.operation with _ | _
  · exact ends_numericText _ _ _
  · exact ends_pure (worded_readable he)

end Wording

end Exact

end ExactCalc
