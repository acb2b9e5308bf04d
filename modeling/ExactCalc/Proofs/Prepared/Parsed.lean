import ExactCalc.Proofs.Postfix.Operands
import ExactCalc.Proofs.Prepared.Again
import ExactCalc.Proofs.Token.Cut

/-!
# Parsing a Prepared Expression

Whatever text is prepared, the parser accepts, and it finds the same names.

The pieces of a prepared expression are taken one after the other, and two things
are carried along the row: the tokens that its text is cut into, and where they
take the yard. The text is cut from its end, since where a piece stops depends on
what follows it; `Cuts` therefore speaks of a row in front of any text that its
last piece does not run on into. The yard starts from the front, as `Leads` says.
Both grow by the same tokens with each piece: those of what is written before it,
a multiplication sign at most, and its own.

A number is all that can go wrong. Its digits have been looked at one by one
only, so a number may have two points or a digit that its base refuses, and then
it is for the parser to say so. A number that is read as one when it stands alone
is read as one inside the expression too.

## Main definitions

* `Piece.Halts`, `Piece.Cuts`: The tokens of a row in front of a text.
* `Piece.Legible`: Every number of a row is read as one when it stands alone.
* `Piece.variableNames`: The variables of a row.

## Theorems

* `undefinedIn_eq`: The undefined names of a row are the variables that nothing
  defines, each where it first occurs.
* `tokens_of_row`: A row is cut into tokens that take the yard along.
* `ofText_parsed`: A prepared expression is read as a tree with the names that the
  preparation reported.
-/

namespace ExactCalc

open Postfix (Leads Postorder)

namespace Piece

/-- A text that a piece does not run on into, and that begins with a sign behind an
    operand. -/
structure Halts (q : Piece) (rest : List Char) : Prop where
  stops : q.Stops rest
  sign : q.endsOperand = true → Token.Stops rest

/-- The tokens that a row, the last piece first, is cut into in front of any text at
    which it halts. -/
def Cuts (ps : List Piece) (ts : List Token) : Prop :=
  ∀ rest rs, (∀ q ∈ ps.head?, q.Halts rest) → Token.Cut rest rs →
    Token.Cut (write ps.reverse ++ rest) (ts ++ rs)

/-- Every number of a row, taken alone, is read as one number. -/
def Legible (ps : List Piece) : Prop :=
  ∀ t, .number t ∈ ps ∨ .refused t ∈ ps → ∃ x, Token.tokenize t = .ok [.num x]

/-- The variables of a row, the last piece first, in the order in which they occur
    in the text, and as often. -/
def variableNames : List Piece → List String
  | .constant t :: ps =>
    if String.ofList t = Variable.piName then variableNames ps
    else variableNames ps ++ [String.ofList t]
  | _ :: ps => variableNames ps
  | [] => []

theorem eraseDups_concat (names : List String) (name : String) :
    (names ++ [name]).eraseDups =
      if names.eraseDups.contains name then names.eraseDups else names.eraseDups ++ [name] := by
  have hmem : names.eraseDups.contains name = names.contains name := by
    rw [Bool.eq_iff_iff, List.contains_iff_mem, List.contains_iff_mem, List.mem_eraseDups]
  rw [hmem, List.eraseDups_append, List.cons_removeAll, List.nil_removeAll]
  cases names.contains name with
  | true => rw [if_neg (by decide), if_pos rfl, List.eraseDups_nil, List.append_nil]
  | false =>
      rw [if_pos rfl, if_neg (by decide)]
      rfl

/-- The undefined names of a row are the variables that nothing defines, each where
    it first occurs. -/
theorem undefinedIn_eq (known : String → Bool) (ps : List Piece) :
    undefinedIn known ps = ((variableNames ps).filter fun name => !known name).eraseDups := by
  induction ps with
  | nil => rfl
  | cons q ps ih =>
      cases q with
      | constant t =>
          rw [variableNames, undefinedIn, ih]
          generalize String.ofList t = name
          by_cases hpi : name = Variable.piName
          · -- The circle constant is no variable and is never missing.
            simp only [hpi, if_true, bne_self_eq_false, Bool.false_and, Bool.false_eq_true,
              if_false]
          rw [if_neg hpi, List.filter_append, bne_iff_ne.mpr hpi, Bool.true_and]
          cases hknown : known name with
          | true =>
              rw [List.filter_cons_of_neg (by rw [hknown]; decide), List.filter_nil,
                List.append_nil]
              rfl
          | false =>
              rw [List.filter_cons_of_pos (by rw [hknown]; rfl), List.filter_nil, eraseDups_concat]
              generalize ((variableNames ps).filter fun name => !known name).eraseDups = missing
              cases missing.contains name <;> rfl
      | _ => exact ih

variable {session : Radix} {ps : List Piece} {n : Nat} {q : Piece} {us : List String}

theorem token_of_sign {c : Char} (hc : c ∈ ['+', '-', '*', '/', '^']) :
    ∃ t, Token.ofChar? c = some t := by
  have hall : ∀ c ∈ ['+', '-', '*', '/', '^'], (Token.ofChar? c).isSome = true :=
    Text.forall_of_all (by decide)
  exact Option.isSome_iff_exists.mp (hall c hc)

theorem stops_sign {c : Char} (hc : c ∈ ['+', '-', '*', '/', '^']) (rest : List Char) :
    Token.Stops (c :: rest) := by
  rcases token_of_sign hc with ⟨t, ht⟩
  exact Token.stops_cons rest ht

/-- Behind an operand a sign is written. -/
theorem stops_behind (hrow : Row session (q :: ps) n) (hends : ends ps = true)
    (rest : List Char) : Token.Stops (link ps q ++ q.text ++ rest) := by
  -- An operand is multiplied by what stands before it; anything else is a sign itself.
  by_cases hstarts : q.startsOperand = true
  · rw [link_of_ends hstarts hends]
    exact stops_sign (by decide) _
  rw [link_of_not_starts ps (Bool.not_eq_true _ ▸ hstarts)]
  cases hrow with
  | sign _ hc => exact stops_sign hc rest
  | closing => exact Token.stops_cons rest (show Token.ofChar? ')' = some .rparen from rfl)
  | opening => exact absurd rfl hstarts
  | made _ hmade => cases hmade <;> exact absurd rfl hstarts

theorem halts_tail (hrow : Row session (q :: ps) n) (rest : List Char) :
    ∀ r ∈ ps.head?, r.Halts (link ps q ++ q.text ++ rest) := by
  intro r hr
  refine ⟨Preparation.stops_tail hrow rest r hr, fun hends => stops_behind hrow ?_ rest⟩
  rw [ends, hr, Option.any_some, hends]

/-- What is written in front of an operand makes way for it. -/
theorem tokens_of_link (hq : q.startsOperand = true) :
    ∃ ts, (∀ cs rs, Token.Cut cs rs → Token.Cut (link ps q ++ cs) (ts ++ rs)) ∧
      Leads ts ⟨ends ps, n, us⟩ ⟨false, n, us⟩ := by
  by_cases hends : ends ps = true
  · rw [link_of_ends hq hends, hends]
    exact ⟨[.star], fun cs rs h => .sign rfl h, Postfix.leads_operator rfl⟩
  rw [Bool.not_eq_true] at hends
  rw [hends]
  -- A blank between two words is no token.
  refine ⟨[], fun cs rs h => ?_, Postfix.leads_nil _⟩
  rcases link_of_not_ends hq hends with hlink | ⟨hlink, -⟩
  · rw [hlink]
    exact .blank (by decide) h
  · rw [hlink]
    exact h

theorem leads_number (x : Rat) : Leads [.num x] ⟨false, n, us⟩ ⟨true, n, us⟩ := by
  have hleads : Leads [.num x] ⟨false, n, us⟩ ⟨true, n, us ++ (Expr.rat x).names⟩ :=
    Postfix.leads_send (.number x) (fun _ => rfl)
  rw [Expr.names, List.append_nil] at hleads
  exact hleads

/-- A constant is a variable, unless its name is that of the circle constant. -/
theorem leads_constant {t : List Char} (hname : t ∉ functionNames) :
    Leads [Token.ofName t] ⟨false, n, variableNames ps⟩
      ⟨true, n, variableNames (.constant t :: ps)⟩ := by
  rw [variableNames, Token.ofName]
  by_cases hpi : t = ['p', 'i']
  · have hleads : Leads [.pi] ⟨false, n, variableNames ps⟩
        ⟨true, n, variableNames ps ++ Expr.pi.names⟩ :=
      Postfix.leads_send .pi (fun _ => rfl)
    rw [Expr.names, List.append_nil] at hleads
    rw [if_pos hpi, hpi, if_pos (by decide)]
    exact hleads
  · have hvar : String.ofList t ≠ Variable.piName := by
      intro h
      rw [← String.toList_inj, String.toList_ofList] at h
      exact hpi h
    have hcall : Postfix.isFunctionName (String.ofList t) = false := by
      rw [Postfix.isFunctionName, String.toList_ofList, ← Bool.not_eq_true, List.contains_iff_mem]
      exact hname
    rw [if_neg hpi, if_neg hvar]
    refine Postfix.leads_send (.named hcall) (fun y => ?_)
    rw [Postfix.Yard.step, hcall]
    rfl

theorem Legible.tail (h : Legible (q :: ps)) : Legible ps :=
  fun t ht => h t (ht.imp (.tail q) (.tail q))

/-- An operand of one piece, or a function, is one token. -/
theorem tokens_of_made (hq : WellMade session q) (hlegible : Legible (q :: ps)) :
    ∃ t, (∀ rest rs, q.Halts rest → Token.Cut rest rs → Token.Cut (q.text ++ rest) (t :: rs)) ∧
      Leads [t] ⟨false, n, variableNames ps⟩ ⟨q.endsOperand, n, variableNames (q :: ps)⟩ := by
  cases hq with
  | number =>
      rcases hlegible _ (.inl List.mem_cons_self) with ⟨x, hx⟩
      exact ⟨.num x, fun rest rs hhalts h => .number hx (hhalts.sign rfl) h, leads_number x⟩
  | refused =>
      rcases hlegible _ (.inr List.mem_cons_self) with ⟨x, hx⟩
      exact ⟨.num x, fun rest rs hhalts h => .number hx (hhalts.sign rfl) h, leads_number x⟩
  | @constant c cs hc hcs hname =>
      exact ⟨Token.ofName (c :: cs), fun rest rs hhalts h => .name hc hcs hhalts.stops h,
        leads_constant hname⟩
  | root =>
      refine ⟨.ident "sqrt", fun rest rs _ h => .sign rfl h, ?_⟩
      exact Postfix.leads_call (by decide)
  | @called name hname =>
      have hcall : Postfix.isFunctionName (String.ofList name) = true := by
        rw [Postfix.isFunctionName, String.toList_ofList, List.contains_iff_mem]
        exact hname
      refine ⟨.ident (String.ofList name), fun rest rs hhalts h => ?_, Postfix.leads_call hcall⟩
      simp only [functionNames, List.mem_cons, List.not_mem_nil, or_false] at hname
      rcases hname with rfl | rfl
      · have hstops := hhalts.stops (by decide)
        exact Token.Cut.name (by decide) (Text.forall_of_all (by decide)) hstops h
      · have hstops := hhalts.stops (by decide)
        exact Token.Cut.name (by decide) (Text.forall_of_all (by decide)) hstops h

/-- A sign between two operands, or in front of one. -/
theorem leads_of_sign {c : Char} {t : Token} (ht : Token.ofChar? c = some t)
    (hc : c ∈ ['+', '-', '*', '/', '^']) (hplace : c = '+' ∨ c = '-' ∨ ends ps = true) :
    Leads [t] ⟨ends ps, n, us⟩ ⟨false, n, us⟩ := by
  cases hends : ends ps with
  | true =>
      have hoperator : Postfix.isOperator t = true := by
        simp only [List.mem_cons, List.not_mem_nil, or_false] at hc
        rcases hc with rfl | rfl | rfl | rfl | rfl <;> rw [← Option.some.inj ht] <;> rfl
      exact Postfix.leads_operator hoperator
  | false =>
      have hsign : t = .plus ∨ t = .minus := by
        rw [hends] at hplace
        rcases hplace with rfl | rfl | hplace
        · exact .inl (Option.some.inj ht).symm
        · exact .inr (Option.some.inj ht).symm
        · exact absurd hplace Bool.false_ne_true
      exact Postfix.leads_sign hsign

/-- One more piece, with the tokens of what is written in front of it. -/
theorem Cuts.push {ts ts' : List Token} (h : Cuts ps ts) (hrow : Row session (q :: ps) n)
    (hq : ∀ rest rs, q.Halts rest → Token.Cut rest rs →
      Token.Cut (link ps q ++ (q.text ++ rest)) (ts' ++ rs)) : Cuts (q :: ps) (ts ++ ts') := by
  intro rest rs hhalts hrest
  have htail := halts_tail hrow rest
  rw [List.append_assoc] at htail
  rw [write_reverse_cons, List.append_assoc, List.append_assoc, List.append_assoc]
  exact h _ _ htail (hq rest rs (hhalts q rfl) hrest)

theorem WellMade.starts (h : WellMade session q) : q.startsOperand = true := by
  cases h <;> rfl

/-- A row is cut into tokens that take the yard along: behind an operand exactly if
    the row ends in one, with as many brackets open, and with its variables. -/
theorem tokens_of_row (hrow : Row session ps n) (hlegible : Legible ps) :
    ∃ ts, Cuts ps ts ∧ Leads ts ⟨false, 0, []⟩ ⟨ends ps, n, variableNames ps⟩ := by
  -- The row grows at its end, and so do the tokens.
  induction hrow with
  | nil => exact ⟨[], fun rest rs _ h => h, Postfix.leads_nil _⟩
  | @made ps n q hps hq ih =>
      rcases ih hlegible.tail with ⟨ts, hcuts, hleads⟩
      rcases tokens_of_link hq.starts with ⟨ls, hlink, hlinked⟩
      rcases tokens_of_made hq hlegible with ⟨t, htext, hmade⟩
      refine ⟨ts ++ (ls ++ [t]), hcuts.push (.made hps hq) (fun rest rs hhalts h => ?_),
        hleads.append (hlinked.append hmade)⟩
      rw [List.append_assoc]
      exact hlink _ _ (htext rest rs hhalts h)
  | @sign ps n c hps hc hplace ih =>
      rcases ih hlegible.tail with ⟨ts, hcuts, hleads⟩
      rcases token_of_sign hc with ⟨t, ht⟩
      refine ⟨ts ++ [t], hcuts.push (.sign hps hc hplace) (fun rest rs _ h => ?_),
        hleads.append (leads_of_sign ht hc hplace)⟩
      rw [link_of_not_starts ps rfl]
      exact .sign ht h
  | @opening ps n hps ih =>
      rcases ih hlegible.tail with ⟨ts, hcuts, hleads⟩
      rcases tokens_of_link (q := .opening) rfl with ⟨ls, hlink, hlinked⟩
      refine ⟨ts ++ (ls ++ [.lparen]), hcuts.push (.opening hps) (fun rest rs _ h => ?_),
        hleads.append (hlinked.append Postfix.leads_opening)⟩
      rw [List.append_assoc]
      exact hlink _ _ (.sign rfl h)
  | @closing ps n hps hends ih =>
      rcases ih hlegible.tail with ⟨ts, hcuts, hleads⟩
      refine ⟨ts ++ [.rparen], hcuts.push (.closing hps hends) (fun rest rs _ h => ?_), ?_⟩
      · rw [link_of_not_starts ps rfl]
        exact .sign rfl h
      · rw [hends] at hleads
        exact hleads.append Postfix.leads_closing

end Piece

/-- A prepared expression that is not empty, and each number of which is read as one
    when it stands alone, is read as a tree within every bound that the tree fits;
    and the names left undefined are the variables of that tree that are not in the
    registry, each where it first occurs. -/
theorem Prepared.ofText_parsed (registry : Registry) (session : Radix) (text : String) (d : Draft)
    (h : Preparation.draftOf session registry.contains text.toList = .ok d)
    (hne : (Prepared.ofDraft d).expression ≠ "") (hlegible : Piece.Legible d.pieces) :
    Prepared.ofText registry session text = .ok (.ofDraft d) ∧
      ∃ ts row e, Token.tokenize (Prepared.ofDraft d).expression.toList = .ok ts ∧
        Postfix.ofTokens ts = .ok row ∧
        (∀ bound, e.depth ≤ bound → Expr.ofPostfix bound row = .ok e) ∧
        (Prepared.ofDraft d).undefinedNames =
          (e.names.filter fun name => !registry.contains name).eraseDups := by
  rcases Preparation.row_of_draftOf h with ⟨hrow, hincomplete, hnames⟩
  have hpieces : d.pieces ≠ [] := by
    intro hnil
    rw [Prepared.ofDraft, hnil] at hne
    exact hne rfl
  have hends := Piece.ends_of_closed hrow hincomplete hpieces
  rcases Piece.tokens_of_row hrow hlegible with ⟨ts, hcuts, hleads⟩
  rw [hends] at hleads
  rcases Postfix.ofTokens_of_leads hleads with ⟨row, e, hyard, hlisted, hvariables⟩
  -- Nothing follows the last piece, so it halts there.
  have hhalts : ∀ q ∈ d.pieces.head?, q.Halts [] :=
    fun q _ => ⟨Preparation.stops_nil q, fun _ => Token.stops_nil⟩
  have htokens := hcuts [] [] hhalts Token.Cut.nil 0
  rw [List.append_nil, List.append_nil] at htokens
  refine ⟨by rw [Prepared.ofText, h]; rfl, ts, row, e, ?_, hyard, ?_, ?_⟩
  · rw [Prepared.ofDraft, String.toList_ofList]
    exact htokens
  · exact fun bound hb => Postfix.ofPostfix_postorder hlisted hb
  · rw [Prepared.ofDraft, hnames, Piece.undefinedIn_eq, hvariables]

/-- The draft of `7E8x-√y` in base eight, which has no digit eight. -/
def Draft.scaledByEight : Draft :=
  ⟨[.constant ['y'], .function ['√'], .operator ['-'], .constant ['x'],
    .refused ['0', 'o', ':', '7', 'E', '8']], ⟨6, 7⟩, [], ["x", "y"]⟩

/-- The digit that the base refuses belongs to a power of ten, which is decimal, so
    the number is one and the parser accepts it. -/
theorem Prepared.scaledByEight_parsed :
    Prepared.ofText Registry.standard .oct "7E8x-√y" = .ok ⟨"0o:7E8*x-√y", ["x", "y"]⟩ ∧
      ∃ ts row e, Token.tokenize "0o:7E8*x-√y".toList = .ok ts ∧
        Postfix.ofTokens ts = .ok row ∧
        (∀ bound, e.depth ≤ bound → Expr.ofPostfix bound row = .ok e) ∧
        ["x", "y"] = (e.names.filter fun name => !Registry.standard.contains name).eraseDups := by
  have hdraft : Preparation.draftOf .oct Registry.standard.contains "7E8x-√y".toList =
      .ok .scaledByEight :=
    eq_ok_of_toOption (by decide +kernel)
  have hwritten : Prepared.ofDraft .scaledByEight = ⟨"0o:7E8*x-√y", ["x", "y"]⟩ := by
    decide +kernel
  have hnumber : Token.tokenize ['0', 'o', ':', '7', 'E', '8'] = .ok [.num 700000000] :=
    eq_ok_of_toOption (by decide +kernel)
  have hread := ofText_parsed Registry.standard .oct "7E8x-√y" .scaledByEight hdraft
    (by rw [hwritten]; decide) (fun t ht => ⟨700000000, ?_⟩)
  · rw [hwritten] at hread
    exact hread
  · simp only [Draft.scaledByEight, List.mem_cons, List.not_mem_nil, or_false, reduceCtorEq,
      false_or, Piece.refused.injEq] at ht
    rw [ht]
    exact hnumber

end ExactCalc
