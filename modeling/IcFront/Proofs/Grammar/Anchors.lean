import IcFront.Proofs.Grammar.Account
import IcFront.Proofs.Grammar.BodyAnchors

/-!
# Positions keep the lines of anchors

A token adds its line, or a place without one, to the lines of the anchors that have been
read of a program, whatever the position makes of it (`Position.Leads.anchors`). It is a
place without one where the token is no anchor.
-/

namespace IcFront

/-! ## Places in a program -/

/-- The lines of the anchors in a member, in the order of the source. -/
def MemberTree.anchors (m : MemberTree) : List (Option Int) := anchorLines m.leaves

/-- The lines of the anchors in a class, in the order of the source. -/
def ClassTree.anchors (c : ClassTree) : List (Option Int) := anchorLines c.leaves

namespace Signature

/-- What has been read of a method before its parenthesis. -/
def headAnchors (s : Signature) : List (Option Int) :=
  (if s.static then [none] else []) ++ s.type.anchors ++ [s.name.anchor]

/-- The formals of a signature that is still being read, in their order. -/
def formalAnchors (s : Signature) : List (List (Option Int)) :=
  s.formals.reverse.map fun f => f.type.anchors ++ [f.name.anchor]

end Signature

/-- What has been read of the heading of a class: its name is the anchor. -/
def headingAnchors (w : Word) (superclass : Option Word) : List (Option Int) :=
  [none, w.anchor] ++ superclass.elim [] fun _ => [none, none]

theorem anchorLines_classHeadingLeaves (w : Word) (superclass : Option Word) :
    anchorLines (classHeadingLeaves w.text w.line (superclass.map (·.text))) =
      headingAnchors w superclass := by
  cases superclass <;> rfl

namespace OpenClass

/-- What has been read of a program before a member of a class. -/
def anchors (c : OpenClass) : List (Option Int) :=
  c.earlier.reverse.flatMap ClassTree.anchors ++ headingAnchors c.name c.superclass ++
    none :: c.members.reverse.flatMap MemberTree.anchors

theorem add_anchors (c : OpenClass) (m : MemberTree) :
    (c.add m).anchors = c.anchors ++ m.anchors := by
  simp [add, anchors]

theorem close_anchors (c : OpenClass) :
    c.close.reverse.flatMap ClassTree.anchors = c.anchors ++ [none] := by
  have hmembers : (c.members.reverse.flatMap MemberTree.leaves).map Leaf.line =
      c.members.reverse.flatMap MemberTree.anchors := List.map_flatMap ..
  have hheading := anchorLines_classHeadingLeaves c.name c.superclass
  rw [anchorLines] at hheading
  simp [close, anchors, ClassTree.anchors, ClassTree.leaves, anchorLines, hheading, hmembers]

end OpenClass

namespace Position

/-- What has been read of a program. -/
def anchors : Position → List (Option Int)
  | classes earlier => earlier.reverse.flatMap ClassTree.anchors
  | classWord earlier => earlier.reverse.flatMap ClassTree.anchors ++ [none]
  | className earlier w =>
    earlier.reverse.flatMap ClassTree.anchors ++ headingAnchors w none
  | extendsWord earlier w =>
    earlier.reverse.flatMap ClassTree.anchors ++ headingAnchors w none ++ [none]
  | superclass earlier w parent =>
    earlier.reverse.flatMap ClassTree.anchors ++ headingAnchors w (some parent)
  | members c => c.anchors
  | staticWord c => c.anchors ++ [none]
  | memberType c static type =>
    c.anchors ++ (if static then [none] else []) ++ type.anchors
  | memberName c type w => c.anchors ++ type.anchors ++ [w.anchor]
  | staticName c type w => c.anchors ++ none :: type.anchors ++ [w.anchor]
  | fieldComma c type first further =>
    c.anchors ++ type.anchors ++
      ((first :: further.reverse).map fun w => [w.anchor]).flatMap (· ++ [none])
  | fieldName c type first further =>
    c.anchors ++ type.anchors ++
      separated none ((first :: further.reverse).map fun w => [w.anchor])
  | formals c s => c.anchors ++ s.headAnchors ++ [none]
  | formalComma c s =>
    c.anchors ++ s.headAnchors ++ none :: s.formalAnchors.flatMap (· ++ [none])
  | formalType c s type =>
    c.anchors ++ s.headAnchors ++ none :: s.formalAnchors.flatMap (· ++ [none]) ++ type.anchors
  | formalName c s => c.anchors ++ s.headAnchors ++ none :: separated none s.formalAnchors
  | signature c s => c.anchors ++ s.headAnchors ++ argumentAnchors s.formalAnchors
  | body c s b => c.anchors ++ s.headAnchors ++ argumentAnchors s.formalAnchors ++ b.anchors

/-- A method is complete when its body is, or where a semicolon stands for one. -/
theorem method_anchors (c : OpenClass) (s : Signature) (b : Option (List StmtTree)) :
    (members (c.add (.method (close s) b))).anchors = c.anchors ++ s.headAnchors ++
      argumentAnchors s.formalAnchors ++
      b.elim [none] fun ss => anchorLines (bodyLeaves (StmtTree.stmts ss)) := by
  have hformals : ((methodOf (close s) b).formals.map Formal.leaves).map anchorLines =
      s.formalAnchors := by
    simp [methodOf, close, Signature.formalAnchors, FormalTree.formal, Formal.leaves,
      anchorLines, TypeRef.anchors]
  have harguments := anchorLines_argumentLeaves ((methodOf (close s) b).formals.map Formal.leaves)
  rw [hformals, anchorLines] at harguments
  rw [anchors, OpenClass.add_anchors, MemberTree.anchors, MemberTree.leaves, anchorLines,
    List.map_append, List.map_append, List.map_cons, harguments]
  cases b with
  | none =>
    cases hst : s.static <;>
      simp [Signature.headAnchors, close, methodOf, MethodForm.closingLeaves, TypeRef.anchors,
        anchorLines, hst]
  | some ss =>
    cases hst : s.static <;>
      simp [Signature.headAnchors, close, methodOf, MethodForm.closingLeaves, TypeRef.anchors,
        anchorLines, hst]

/-- A token adds its line, or a place without one, to the lines of the anchors that have
been read of a program. -/
theorem Leads.anchors {t : Token} {p q : Position} (h : Leads t p q) (hp : p.Faithful) :
    AllTaken q.anchors (p.anchors ++ [t.anchor]) := by
  cases h with
  | class_ | className | extends_ | superclass | static | memberName | staticName | firstComma =>
    simp [Position.anchors, headingAnchors]
  | openClass | openSubclass => simp [Position.anchors, headingAnchors, OpenClass.anchors]
  | closeClass => simp [Position.anchors, OpenClass.close_anchors]
  | memberType h | staticType h | furtherFormal h =>
    simp [Position.anchors, Token.type?_anchors h]
  | memberBrackets => simp [Position.anchors, TypeRef.anchors_array hp.2]
  | virtualFormals | staticFormals => simp [Position.anchors, Signature.headAnchors]
  | field =>
    simp [Position.anchors, OpenClass.add_anchors, MemberTree.anchors, MemberTree.leaves,
      separated, anchorLines, TypeRef.anchors]
  | fields =>
    simp [Position.anchors, OpenClass.add_anchors, MemberTree.anchors, MemberTree.leaves,
      map_separated, anchorLines, TypeRef.anchors, Function.comp_def]
  | fieldName =>
    simp only [Position.anchors]
    rw [List.reverse_cons, ← List.cons_append, List.map_append, List.map_singleton,
      separated_concat]
    simp
  | furtherComma =>
    rw [Position.anchors, Position.anchors, ← separated_append _ (by simp), ← List.append_assoc]
    simp
  | noFormals =>
    simp [Position.anchors, argumentAnchors, Signature.formalAnchors, hp.2.2, separated]
  | firstFormal h =>
    simp [Position.anchors, Signature.formalAnchors, hp.2.2, Token.type?_anchors h]
  | formalName =>
    simp [Position.anchors, Signature.formalAnchors, separated_concat, Signature.headAnchors]
  | formalBrackets => simp [Position.anchors, TypeRef.anchors_array hp.2.2]
  | formalComma =>
    rw [Position.anchors, ← separated_append _ (by simpa [Signature.formalAnchors] using hp.2.2),
      Position.anchors]
    simp
  | signature => simp [Position.anchors, argumentAnchors]
  | bodiless =>
    rw [method_anchors, Position.anchors]
    simp
  | openBody => simp [Position.anchors, Body.anchors, Enclosing.anchors, Spot.anchors]
  | @body _ _ b step h =>
    have hbody := h.anchors hp.2.2
    cases step with
    | inside b => simpa [Position.anchors, ofBodyStep, BodyStep.anchors] using hbody
    | closed ss =>
      rw [ofBodyStep, method_anchors, Position.anchors, List.append_assoc _ b.anchors]
      exact allTaken_append_left.2 hbody

/-- A program that is complete is all that has been read. -/
theorem finish?_anchors {p : Position} {tree : ProgramTree} (h : finish? p = some tree) :
    p.anchors = tree.flatMap ClassTree.anchors := by
  cases p with
  | classes earlier =>
    cases h
    rfl
  | _ => cases h

end Position

end IcFront
