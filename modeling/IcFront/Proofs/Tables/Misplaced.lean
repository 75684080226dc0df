import IcFront.Proofs.Syntax.Judged
import IcFront.Proofs.Tables.CheckedLinking

/-!
# The tables of a document

A document that is called a program may hold anything in the places of a program. Its
tables are built just if everything fits its place that is asked whether it does
(`SymbolTables.ofDocument_rejected_iff`): no undeclared class and no name declared twice
hides a document that does not fit, with one exception. After a parameter of an undeclared
class any document with a type, a name and a line is used as a parameter.
-/

namespace IcFront

/-- The tables of a program given as a document, whose expressions are not looked at. -/
def SymbolTables.ofDocument (d : Document) (name : String) :
    Except Fault (SymbolTables × Program Document) := do
  let p ← (Program.ofDocument Except.ok d).mapError .malformed
  buildChecked p name

namespace SymbolTables

open Document

/-- A document has tables if nothing in it is flawed, and is rejected otherwise. -/
theorem ofDocument_judged {d : Document} (hd : d.kind = "Program")
    (h : Furnished d.classNames .program d) (name : String) :
    (¬Flawed d.classNames .program d ∧ ∃ t, ofDocument d name = .ok t) ∨
      Flawed d.classNames .program d ∧
        ∃ m, ofDocument d name = .error (.malformed m) ∧ m.IsMisplacement := by
  have hjudged := Program.ofDocument_judges hd h
  unfold ofDocument
  cases hp : Program.ofDocument Except.ok d with
  | ok p =>
    rw [hp] at hjudged
    exact .inl ⟨hjudged, _, buildChecked_eq p name⟩
  | error m =>
    rw [hp] at hjudged
    exact .inr ⟨hjudged.2, m, rfl, hjudged.1⟩

/-- If all that stands in a program has its parts, then its tables are built, or it is
rejected for a document that does not fit its place. It is rejected just if there is such a
document, other than after a parameter of an undeclared class. If only parameters stand
there, it is rejected just if any document does not fit its place. -/
theorem ofDocument_rejected_iff {d : Document} (hd : d.kind = "Program")
    (h : ∀ p e, d.Has p e → p.Supplied e) (name : String) :
    ((∃ t, ofDocument d name = .ok t) ∨
        ∃ m, ofDocument d name = .error (.malformed m) ∧ m.IsMisplacement) ∧
      ((∃ m, ofDocument d name = .error (.malformed m)) ↔
        ∃ p e, d.Has p e ∧ Misplaced p e ∧ p ≠ .laterFormal) ∧
      ((∀ e, d.Has .laterFormal e → e.kind = "Formal") →
        ((∃ m, ofDocument d name = .error (.malformed m)) ↔
          ∃ p e, d.Has p e ∧ Misplaced p e)) := by
  have hrejected : (∃ m, ofDocument d name = .error (.malformed m)) ↔
      ∃ p e, d.Has p e ∧ Misplaced p e ∧ p ≠ .laterFormal := by
    rcases ofDocument_judged hd h name with ⟨hfits, t, ht⟩ | ⟨hflawed, m, hm, -⟩
    · rw [ht]
      exact ⟨fun ⟨m, hm⟩ => absurd hm (by simp), fun hex => absurd hex hfits⟩
    · exact ⟨fun _ => hflawed, fun _ => ⟨m, hm⟩⟩
  refine ⟨?_, hrejected, fun hformals => hrejected.trans ?_⟩
  · rcases ofDocument_judged hd h name with ⟨-, t, ht⟩ | ⟨-, m, hm, hmisplaced⟩
    · exact .inl ⟨t, ht⟩
    · exact .inr ⟨m, hm, hmisplaced⟩
  · constructor
    · rintro ⟨p, e, he, hmisplaced, -⟩
      exact ⟨p, e, he, hmisplaced⟩
    · rintro ⟨p, e, he, hmisplaced⟩
      refine ⟨p, e, he, hmisplaced, ?_⟩
      rintro rfl
      cases hmisplaced with
      | kind hkind => exact hkind (by rw [hformals e he]; decide)

/-- A class with a field declared twice and a method whose first parameter is of an
undeclared class. In the method a number stands for what a loop repeats. -/
theorem ofDocument_rejected_branch :
    let type (kind name : String) : Document :=
      .node kind [("name", .text name), ("dimension", .int 0), ("line", .int 1)]
    let named (kind name : String) (type : Document) : Document :=
      .node kind [("type", type), ("name", .text name), ("line", .int 1)]
    let x := named "Field" "x" (type "PrimitiveType" "int")
    let loop : Document :=
      .node "While" [("condition", .bool true), ("operation", .int 3), ("line", .int 1)]
    let f : Document := .node "VirtualMethod" [("type", type "PrimitiveType" "void"),
      ("name", .text "f"), ("formals", .list [named "Formal" "a" (type "UserType" "Ghost"),
        named "Formal" "b" (type "UserType" "A")]),
      ("statements", .list [loop]), ("line", .int 1)]
    let d : Document := .node "Program" [("classes", .list [.node "ICClass"
      [("name", .text "A"), ("super_class_name", .null), ("fields", .list [x, x]),
        ("methods", .list [f]), ("line", .int 1)]]), ("line", .int 0)]
    (d.kind = "Program" ∧ (∀ p e, d.Has p e → p.Supplied e) ∧
      (∀ e, d.Has .laterFormal e → e.kind = "Formal") ∧ d.Has .statement (.int 3)) ∧
      ∃ m, ofDocument d "a.ic" = .error (.malformed m) := by
  intro type named x loop f d
  have hsupplied : ∀ p e, d.Has p e → p.Supplied e := fun p e he =>
    of_decide_eq_true
      (Place.of_everywhere (fun p e => decide (p.Supplied e)) 6 (by decide +kernel) he)
  have hformals : ∀ e, d.Has .laterFormal e → e.kind = "Formal" := fun e he =>
    of_decide_eq_true (Place.of_everywhere
      (fun p e => decide (p = .laterFormal → e.kind = "Formal")) 6 (by decide +kernel) he) rfl
  have hloop : d.Has .statement (.int 3) :=
    .inside (.inl (by decide)) List.mem_cons_self <|
    .inside (.inl (by decide)) (List.mem_of_getElem? (i := 2) rfl) <|
    .inside (.inl (by decide)) (List.mem_of_getElem? (i := 3) rfl) <|
    .inside (.inl (by decide)) List.mem_cons_self (.here _ _)
  exact ⟨⟨rfl, hsupplied, hformals, hloop⟩,
    ((ofDocument_rejected_iff rfl hsupplied "a.ic").2.2 hformals).mpr
      ⟨.statement, .int 3, hloop, .kind (by decide)⟩⟩

/-- After a parameter of an undeclared class a field may stand for a parameter: the tables
are built although a document does not fit its place. -/
theorem ofDocument_overlooks :
    let type (kind name : String) : Document :=
      .node kind [("name", .text name), ("dimension", .int 0), ("line", .int 1)]
    let named (kind name : String) (type : Document) : Document :=
      .node kind [("type", type), ("name", .text name), ("line", .int 1)]
    let x := named "Field" "x" (type "PrimitiveType" "int")
    let m : Document := .node "VirtualMethod" [("type", type "PrimitiveType" "void"),
      ("name", .text "m"), ("formals", .list [named "Formal" "a" (type "UserType" "Ghost"), x]),
      ("statements", .list []), ("line", .int 1)]
    let d : Document := .node "Program" [("classes", .list [.node "ICClass"
      [("name", .text "A"), ("super_class_name", .null), ("fields", .list []),
        ("methods", .list [m]), ("line", .int 1)]]), ("line", .int 0)]
    d.kind = "Program" ∧ (∀ p e, d.Has p e → p.Supplied e) ∧
      (∃ p e, d.Has p e ∧ Misplaced p e) ∧ ∃ t, ofDocument d "a.ic" = .ok t := by
  intro type named x m d
  have hsupplied : ∀ p e, d.Has p e → p.Supplied e := fun p e he =>
    of_decide_eq_true
      (Place.of_everywhere (fun p e => decide (p.Supplied e)) 6 (by decide +kernel) he)
  have hfield : d.Has .laterFormal x :=
    .inside (.inl (by decide)) List.mem_cons_self <|
    .inside (.inl (by decide)) List.mem_cons_self <|
    .inside (.inl (by decide)) (List.mem_of_getElem? (i := 2) rfl) (.here _ _)
  have hok : (ofDocument d "a.ic").isOk = true := by decide +kernel
  refine ⟨rfl, hsupplied, ⟨.laterFormal, x, hfield, .kind (by decide)⟩, ?_⟩
  cases ht : ofDocument d "a.ic" with
  | ok t => exact ⟨t, rfl⟩
  | error e =>
    rw [ht] at hok
    cases hok

end SymbolTables

end IcFront
