import ExactCalc.Proofs.Prepared.Within

/-!
# Groups Side by Side

Two groups with a sign between them, or with none.

A group is read as its text is read alone, and it ends in an operand whatever it holds.
So every sign may follow it, and where none does the bracket that opens the second group
is multiplied with the first. Written down, each of the groups is its own expression in
brackets, for nothing is written behind an opening bracket and nothing in front of a
closing one. Only the list of undefined names goes on from the one to the other.

## Main definitions

* `connectives`: What may stand between two groups, and what is written for it.

## Theorems

* `write_group`: A group is written as its pieces are, in brackets.
* `reach_connective`: Every sign may follow a group.
* `draftOf_groups`, `ofText_groups`: Two groups are prepared as their texts are.
-/

namespace ExactCalc

/-- What may stand between two groups, and what is written for it. -/
def connectives : List (String × String) :=
  [("", "*"), ("+", "+"), ("-", "-"), ("*", "*"), ("/", "/"), ("^", "^"), ("×", "*"), ("÷", "/")]

namespace Piece

/-- Nothing is written between an opening bracket and what follows it. -/
theorem write_append_opening (ds ps : List Piece) :
    write (ds ++ .opening :: ps).reverse = write (.opening :: ps).reverse ++ write ds.reverse := by
  induction ds with
  | nil => exact (List.append_nil _).symm
  | cons q ds ih =>
      have hlink : link (ds ++ .opening :: ps) q = link ds q := by
        cases ds with
        | nil => cases q <;> rfl
        | cons r ds => rfl
      rw [List.cons_append, write_reverse_cons (ds ++ _), ih, hlink, write_reverse_cons ds,
        List.append_assoc]

/-- A group is written as its pieces are, in brackets. -/
theorem write_group (ds ps : List Piece) :
    write (.closing :: (ds ++ .opening :: ps)).reverse =
      write ps.reverse ++ link ps .opening ++ ('(' :: (write ds.reverse ++ [')'])) := by
  rw [write_reverse_cons, link_of_not_starts _ rfl, write_append_opening, write_reverse_cons]
  simp only [text, List.nil_append, List.append_assoc, List.cons_append]

end Piece

namespace Preparation

open Piece (write link)

variable {session : Radix} {known : String → Bool} {p : Preparation} {ps : List Piece} {n : Nat}
  {us : List String} {prev : Option Char} {rest s t : List Char} {d e : Draft} {o o' : String}

/-- Behind a group, a sign or none leads to where the next group may start. -/
theorem reach_connective (ho : (o, o') ∈ connectives) (ps : List Piece) :
    ∃ qs, write qs.reverse ++ link qs .opening = write (.closing :: ps).reverse ++ o'.toList ∧
      ∀ {p : Preparation} {prev : Option Char} {rest : List Char} {n : Nat} {us : List String},
        p.Holds (.new session) (.closing :: ps) n us →
          Reach session known prev o.toList rest p (Holds (.new session) qs n us) := by
  -- A sign is written as it is read, and nothing is written in front of a bracket then.
  have hsign : ∀ c e : Char, c ∈ Lexeme.operatorSigns →
      (∀ pos, Lexeme.normal ⟨.operator, [c], pos⟩ = [e]) →
      ∃ qs, write qs.reverse ++ link qs .opening = write (.closing :: ps).reverse ++ [e] ∧
        ∀ {p : Preparation} {prev : Option Char} {rest : List Char} {n : Nat} {us : List String},
          p.Holds (.new session) (.closing :: ps) n us →
            Reach session known prev [c] rest p (Holds (.new session) qs n us) := by
    intro c e hc hnormal
    refine ⟨.operator [e] :: .closing :: ps, ?_, fun hp => ?_⟩
    · have hlink : link (.operator [e] :: .closing :: ps) .opening = [] := rfl
      rw [hlink, Piece.write_reverse_cons, Piece.link_of_not_starts _ rfl, List.append_nil]
      rfl
    · exact reach_operator hp (Literal.Builder.digits_of_new session) hc hnormal
        (fun _ => Literal.Builder.takesSign_of_current_eq_none rfl) (.inr (.inr rfl))
  simp only [connectives, List.mem_cons, Prod.mk.injEq, List.not_mem_nil, or_false] at ho
  rcases ho with ⟨rfl, rfl⟩ | ⟨rfl, rfl⟩ | ⟨rfl, rfl⟩ | ⟨rfl, rfl⟩ | ⟨rfl, rfl⟩ | ⟨rfl, rfl⟩ |
    ⟨rfl, rfl⟩ | ⟨rfl, rfl⟩
  · exact ⟨.closing :: ps, rfl, fun hp => .refl hp⟩
  all_goals exact hsign _ _ (by decide) (fun _ => rfl)

/-- Two groups are read one after the other. -/
theorem draftOf_groups (hs : draftOf session known s = .ok d) (ht : draftOf session known t = .ok e)
    (hd : d.pieces ≠ []) (he : e.pieces ≠ []) (ho : (o, o') ∈ connectives) :
    ∃ g, draftOf session known
        ((['('] ++ (s ++ [')'])) ++ (o.toList ++ (['('] ++ (t ++ [')'])))) = .ok g ∧
      write g.pieces.reverse = ('(' :: (write d.pieces.reverse ++ [')'])) ++ o'.toList ++
        ('(' :: (write e.pieces.reverse ++ [')'])) ∧
      g.undefinedNames = d.undefinedNames ++
        e.undefinedNames.filter fun name => !d.undefinedNames.contains name := by
  have hstart : (start session).Holds (.new session) [] 0 [] := ⟨rfl, rfl, rfl, rfl⟩
  rcases reach_connective ho (d.pieces ++ [.opening]) with ⟨qs, hwritten, hconnects⟩
  have hreach : Reach session known none
      ((['('] ++ (s ++ [')'])) ++ (o.toList ++ (['('] ++ (t ++ [')'])))) [] (start session)
      (Holds (.new session) (.closing :: (e.pieces ++ .opening :: qs)) 0
        (d.undefinedNames ++
          e.undefinedNames.filter fun name => !d.undefinedNames.contains name)) := by
    refine (reach_group hstart hs hd).trans (fun q hq => ?_)
    -- Nothing is listed before the first group.
    rw [listed_nil] at hq
    exact (hconnects hq).trans (fun r hr => reach_group hr ht he)
  rcases draftOf_of_reach hreach (Literal.Builder.digits_of_new session) rfl with
    ⟨g, hg, hpieces, hnames⟩
  refine ⟨g, hg, ?_, hnames⟩
  have hshown : g.pieces = .closing :: (e.pieces ++ .opening :: qs) := hpieces
  rw [hshown, Piece.write_group, hwritten, Piece.write_group]
  rfl

end Preparation

namespace Prepared

/-- Two groups side by side, with a sign between them or with none, are prepared as
    their texts are, each for itself: nothing that was read in the one matters to the
    other, except that no name is listed twice. -/
theorem ofText_groups (registry : Registry) (session : Radix) {s t : String} {p q : Prepared}
    (hs : ofText registry session s = .ok p) (ht : ofText registry session t = .ok q)
    (hp : p.expression ≠ "") (hq : q.expression ≠ "") {o o' : String}
    (ho : (o, o') ∈ connectives) :
    ofText registry session ("(" ++ s ++ ")" ++ o ++ "(" ++ t ++ ")") =
      .ok ⟨"(" ++ p.expression ++ ")" ++ o' ++ "(" ++ q.expression ++ ")",
        p.undefinedNames ++
          q.undefinedNames.filter fun name => !p.undefinedNames.contains name⟩ := by
  rcases draftOf_of_ofText hs with ⟨d, hd, rfl⟩
  rcases draftOf_of_ofText ht with ⟨e, he, rfl⟩
  rcases Preparation.draftOf_groups hd he (pieces_ne_nil hp) (pieces_ne_nil hq) ho with
    ⟨g, hg, hwritten, hnames⟩
  have hopening : "(".toList = ['('] := rfl
  have hclosing : ")".toList = [')'] := rfl
  have htext : ("(" ++ s ++ ")" ++ o ++ "(" ++ t ++ ")").toList =
      (['('] ++ (s.toList ++ [')'])) ++ (o.toList ++ (['('] ++ (t.toList ++ [')']))) := by
    simp only [String.toList_append, hopening, hclosing, List.append_assoc]
  have hexpression : String.ofList (Piece.write g.pieces.reverse) =
      "(" ++ (ofDraft d).expression ++ ")" ++ o' ++ "(" ++ (ofDraft e).expression ++ ")" := by
    rw [← String.toList_inj, String.toList_ofList, hwritten]
    simp only [ofDraft, String.toList_append, String.toList_ofList, hopening, hclosing,
      List.append_assoc, List.cons_append, List.nil_append]
  rw [ofText, htext, hg, ← hexpression]
  exact congrArg (fun names => Except.ok (Prepared.mk _ names)) hnames

/-- The number that ends the first group has a marker, and the second group begins with a
    digit of the session. -/
theorem ofText_groups_bases :
    ofText Registry.standard .hex "x*0b:1 " = .ok ⟨"x*0b:1", ["x"]⟩ ∧
      ofText Registry.standard .hex "A x y" = .ok ⟨"0x:A*x*y", ["x", "y"]⟩ ∧
      ("÷", "/") ∈ connectives ∧
      ofText Registry.standard .hex "(x*0b:1 )÷(A x y)" =
        .ok ⟨"(x*0b:1)/(0x:A*x*y)", ["x", "y"]⟩ := by
  have hs : ofText Registry.standard .hex "x*0b:1 " = .ok ⟨"x*0b:1", ["x"]⟩ :=
    eq_ok_of_toOption (by decide +kernel)
  have ht : ofText Registry.standard .hex "A x y" = .ok ⟨"0x:A*x*y", ["x", "y"]⟩ :=
    eq_ok_of_toOption (by decide +kernel)
  have ho : ("÷", "/") ∈ connectives := by decide +kernel
  have hboth : ofText Registry.standard .hex
      ("(" ++ "x*0b:1 " ++ ")" ++ "÷" ++ "(" ++ "A x y" ++ ")") =
        .ok ⟨"(" ++ "x*0b:1" ++ ")" ++ "/" ++ "(" ++ "0x:A*x*y" ++ ")",
          ["x"] ++ ["x", "y"].filter fun name => !(["x"] : List String).contains name⟩ :=
    ofText_groups Registry.standard .hex hs ht (by decide +kernel) (by decide +kernel) ho
  have htext : "(" ++ "x*0b:1 " ++ ")" ++ "÷" ++ "(" ++ "A x y" ++ ")" =
      "(x*0b:1 )÷(A x y)" := by decide +kernel
  have hexpression : "(" ++ "x*0b:1" ++ ")" ++ "/" ++ "(" ++ "0x:A*x*y" ++ ")" =
      "(x*0b:1)/(0x:A*x*y)" := by decide +kernel
  have hnames : ["x"] ++ ["x", "y"].filter (fun name => !(["x"] : List String).contains name) =
      ["x", "y"] := by
    decide +kernel
  rw [htext, hexpression, hnames] at hboth
  exact ⟨hs, ht, ho, hboth⟩

end Prepared

end ExactCalc
