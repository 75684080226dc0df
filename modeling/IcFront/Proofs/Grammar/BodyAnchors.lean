import IcFront.Proofs.Grammar.BodyAccount
import IcFront.Proofs.Grammar.ExprAnchors

/-!
# Places in a body keep the lines of anchors

What `IcFront.Proofs.Grammar.ExprAnchors` says of a place in an expression holds of a place
in a body, with the statements around it: each line that is kept is that of the token in
its place (`Body.Leads.anchors`). Putting complete statements into the braces around them
changes no line (`Enclosing.settle_anchors`).
-/

namespace IcFront

namespace StmtTree

theorem anchorLines_stmts (ss : List StmtTree) :
    anchorLines (Stmt.leavesOf (stmts ss)) = ss.flatMap anchors := by
  induction ss with
  | nil => rfl
  | cons s ss ih =>
    rw [stmts, Stmt.leavesOf, anchorLines, List.map_append, ← anchorLines, ← anchorLines, ih]
    rfl

end StmtTree

namespace Enclosing

/-- What has been read of a body before a statement, its opening brace included. -/
def anchors : Enclosing → List (Option Int)
  | body earlier => none :: earlier.reverse.flatMap StmtTree.anchors
  | block line earlier outer =>
    outer.anchors ++ some ↑line :: earlier.reverse.flatMap StmtTree.anchors
  | thenBranch line condition outer | loop line condition outer =>
    outer.anchors ++ [some ↑line, none] ++ condition.anchors ++ [none]
  | elseBranch line condition b outer =>
    outer.anchors ++ [some ↑line, none] ++ condition.anchors ++ none :: b.anchors ++ [none]

/-- Putting a statement into the braces around it changes no line. -/
theorem settle_anchors (s : StmtTree) (e : Enclosing) :
    (e.settle s).anchors = e.anchors ++ s.anchors := by
  induction e generalizing s with
  | body earlier => simp [settle, anchors]
  | block line earlier outer _ => simp [settle, anchors]
  | thenBranch line condition outer ih | elseBranch line condition b outer ih
  | loop line condition outer ih =>
    rw [settle, ih]
    simp [anchors, StmtTree.anchors, StmtTree.stmt, Stmt.leaves, ExprTree.anchors, anchorLines]

/-- An `else` has no line of its own, and takes nothing away from what has been read. -/
theorem attachElse?_anchors {s : StmtTree} {e e' : Enclosing} (h : e.attachElse? s = some e') :
    e'.anchors = e.anchors ++ s.anchors ++ [none] := by
  induction e generalizing s with
  | body earlier => cases h
  | block line earlier outer _ => cases h
  | thenBranch line condition outer _ =>
    cases h
    simp [anchors]
  | elseBranch line condition b outer ih | loop line condition outer ih =>
    rw [ih h]
    simp [anchors, StmtTree.anchors, StmtTree.stmt, Stmt.leaves, ExprTree.anchors, anchorLines]

end Enclosing

/-- What has been read of a statement up to a place in it. -/
def Spot.anchors : Spot → List (Option Int)
  | opened | branch => []
  | after s => s.anchors
  | breakWord line | continueWord line | returnWord line | ifWord line | whileWord line =>
    [some ↑line]
  | className c => [c.anchor]
  | declared type => type.anchors
  | declaredName type w => type.anchors ++ [w.anchor]
  | expr s => s.anchors

/-- What has been read of a body. -/
def Body.anchors (b : Body) : List (Option Int) := b.enclosing.anchors ++ b.spot.anchors

/-- What has been read of a body up to where a token leads. -/
def BodyStep.anchors : BodyStep → List (Option Int)
  | inside b => b.anchors
  | closed statements => anchorLines (bodyLeaves (StmtTree.stmts statements))

namespace Body

variable {t : Token} {e : Enclosing} {step : BodyStep}

theorem StartLeads.anchors {b : Body} (h : StartLeads t e b) :
    AllTaken b.anchors (e.anchors ++ [t.anchor]) := by
  cases h with
  | declared _ h => simp [Body.anchors, Spot.anchors, Token.type?_anchors h]
  | expression _ h =>
    simpa [Body.anchors, Spot.anchors, Pending.anchors, Purpose.anchors]
      using ExprSpot.start_anchors h
  | className | returnWord | ifWord | whileWord | breakWord | continueWord | block =>
    simp [Body.anchors, Spot.anchors, Enclosing.anchors]

theorem NextLeads.anchors (h : NextLeads t e step) :
    AllTaken step.anchors (e.anchors ++ [t.anchor]) := by
  cases h with
  | @closeBody earlier =>
    have hstmts := StmtTree.anchorLines_stmts earlier.reverse
    rw [anchorLines] at hstmts
    simp [BodyStep.anchors, bodyLeaves, anchorLines, hstmts, Enclosing.anchors]
  | @closeBlock line earlier outer =>
    have hstmts := StmtTree.anchorLines_stmts earlier.reverse
    rw [anchorLines] at hstmts
    simp [BodyStep.anchors, Body.anchors, Spot.anchors, StmtTree.anchors, StmtTree.stmt,
      Stmt.leaves, anchorLines, hstmts, Enclosing.anchors]
  | start h => exact h.anchors

theorem ofExprStep_anchors (e : Enclosing) (step : ExprStep) :
    (ofExprStep e step).anchors = e.anchors ++ step.anchors := by
  cases step <;>
    simp [ofExprStep, anchors, Spot.anchors, Enclosing.anchors, ExprStep.anchors]

/-- A token in a body adds its line, or a place without one, to the lines of the anchors
that have been read. -/
theorem Leads.anchors {b : Body} (h : Leads t b step) (hb : b.Faithful) :
    AllTaken step.anchors (b.anchors ++ [t.anchor]) := by
  obtain ⟨-, hs⟩ := hb
  cases h with
  | opened h => simpa [Body.anchors, Spot.anchors] using h.anchors
  | branch h => simpa [BodyStep.anchors, Body.anchors, Spot.anchors] using h.anchors
  | else_ _ h =>
    simp [BodyStep.anchors, Body.anchors, Spot.anchors, Enclosing.attachElse?_anchors h]
  | after h =>
    have hnext := h.anchors
    rwa [Enclosing.settle_anchors] at hnext
  | returned h =>
    simpa [BodyStep.anchors, Body.anchors, Spot.anchors, Pending.anchors, Purpose.anchors]
      using ExprSpot.start_anchors h
  | break_ | continue_ | return_ | localVar =>
    simp [BodyStep.anchors, Body.anchors, Spot.anchors, StmtTree.anchors, StmtTree.stmt,
      Stmt.leaves, Expr.leaves?, TypeRef.anchors, anchorLines]
  | ifCondition | whileCondition | classDot | initial =>
    simp [BodyStep.anchors, Body.anchors, Spot.anchors, ExprSpot.anchors, Pending.anchors,
      Purpose.anchors]
  | classLocalName | classBrackets | localName =>
    simp [BodyStep.anchors, Body.anchors, Spot.anchors, TypeRef.anchors, TypeRef.leaves,
      anchorLines]
  | brackets =>
    simp [BodyStep.anchors, Body.anchors, Spot.anchors, TypeRef.anchors_array hs]
  | expr h =>
    rw [BodyStep.anchors, ofExprStep_anchors, Body.anchors, List.append_assoc]
    exact allTaken_append_left.2 (h.anchors hs)

end Body

end IcFront
