import IcFront.Proofs.Grammar.ExprAccount
import IcFront.Proofs.Grammar.TreeLeaves
import Mathlib.Data.List.Forall2

/-!
# Places in an expression keep the lines of anchors

A place in an expression keeps the lines of the tokens so far that are anchors: written
out in the order of the tokens, each line that is kept is that of the token in its place
(`ExprSpot.Leads.anchors`). A token that is no anchor, or that turns out to be none, leaves
its place empty: so does the class name after `new`, which is the anchor of a type only if
brackets follow.
-/

namespace IcFront

/-! ## Lines taken from tokens -/

/-- A line that is taken from a token is the line of the token. -/
def Taken (a b : Option Int) : Prop := ∀ l ∈ a, b = some l

@[simp] theorem taken_none (b : Option Int) : Taken none b := by simp [Taken]

@[simp] theorem taken_refl (a : Option Int) : Taken a a := fun _ h => h

/-- Lines are taken from tokens, each from the one in its place. -/
def AllTaken (as bs : List (Option Int)) : Prop := List.Forall₂ Taken as bs

@[simp] theorem allTaken_refl (as : List (Option Int)) : AllTaken as as :=
  List.forall₂_same.2 fun a _ => taken_refl a

@[simp] theorem allTaken_cons {a b : Option Int} {as bs : List (Option Int)} :
    AllTaken (a :: as) (b :: bs) ↔ Taken a b ∧ AllTaken as bs :=
  List.forall₂_cons

@[simp] theorem allTaken_append_left {xs as bs : List (Option Int)} :
    AllTaken (xs ++ as) (xs ++ bs) ↔ AllTaken as bs := by
  induction xs with
  | nil => rfl
  | cons x xs ih => simp [ih]

theorem AllTaken.append {as bs cs ds : List (Option Int)} (h : AllTaken as bs)
    (h' : AllTaken cs ds) : AllTaken (as ++ cs) (bs ++ ds) :=
  List.rel_append h h'

theorem AllTaken.trans {as bs cs : List (Option Int)} (h : AllTaken as bs)
    (h' : AllTaken bs cs) : AllTaken as cs := by
  induction h generalizing cs with
  | nil => exact h'
  | cons hab _ ih =>
    cases h' with
    | cons hbc h' => exact .cons (fun l hl => hbc l (hab l hl)) (ih h')

/-- The line of a token. -/
def Token.anchor (t : Token) : Option Int := some ↑t.line

/-- The line of a word. -/
def Word.anchor (w : Word) : Option Int := some ↑w.line

@[simp] theorem Token.some_line (t : Token) : some (t.line : Int) = t.anchor := rfl

@[simp] theorem Word.some_line (w : Word) : some (w.line : Int) = w.anchor := rfl

@[simp] theorem Token.anchor_word (t : Token) : t.word.anchor = t.anchor := rfl

/-! ## Operands -/

/-- The lines of the anchors of tokens. -/
def anchorLines (ls : List Leaf) : List (Option Int) := ls.map Leaf.line

/-- A type: its base, and its brackets. -/
def TypeRef.anchors (t : TypeRef) : List (Option Int) := anchorLines t.leaves

theorem TypeRef.anchors_array {t : TypeRef} (h : 0 ≤ t.dimension) :
    t.array.anchors = t.anchors ++ [none] := by
  have hsucc : (t.dimension + 1).toNat = t.dimension.toNat + 1 := by omega
  simp [anchors, anchorLines, leaves, array, hsucc, List.replicate_succ']

theorem Token.type?_anchors {t : Token} {type : TypeRef} (h : t.type? = some type) :
    type.anchors = [t.anchor] := by
  unfold Token.type? at h
  split at h <;> cases h <;> rfl

namespace ExprTree

/-- The lines of the anchors in a parse tree. -/
def anchors (e : ExprTree) : List (Option Int) := anchorLines e.expr.leaves

end ExprTree

/-- Arguments, each already written out. -/
def argumentAnchors (arguments : List (List (Option Int))) : List (Option Int) :=
  none :: separated none arguments ++ [none]

theorem anchorLines_argumentLeaves (arguments : List (List Leaf)) :
    anchorLines (argumentLeaves arguments) = argumentAnchors (arguments.map anchorLines) := by
  simp [anchorLines, argumentLeaves, argumentAnchors, map_separated]
  rfl

/-- What has been read of a statement before the expression in it. -/
def Purpose.anchors : Purpose → List (Option Int)
  | statement => []
  | assigned target => target.anchors ++ [none]
  | initial type w => type.anchors ++ [w.anchor, none]
  | returned line => [some ↑line]
  | ifCondition line | whileCondition line => [some ↑line, none]

namespace Callee

/-- What has been read of a call before its parenthesis. -/
def anchors : Callee → List (Option Int)
  | .static c _ => [c.anchor, none, none]
  | .virtual receiver w => receiver.anchors ++ [none, w.anchor]
  | .local w => [w.anchor]

theorem call_anchors (c : Callee) (arguments : List ExprTree) :
    (c.call arguments).anchors = c.anchors ++ argumentAnchors (arguments.map ExprTree.anchors) := by
  have hargs : (Expr.leavesOf (ExprTree.exprs arguments)).map anchorLines =
      arguments.map ExprTree.anchors := by
    rw [Expr.leavesOf_eq_map, ExprTree.exprs_eq_map, List.map_map, List.map_map]
    rfl
  have hargs' := anchorLines_argumentLeaves (Expr.leavesOf (ExprTree.exprs arguments))
  rw [hargs] at hargs'
  rw [← hargs']
  cases c <;>
    simp [call, anchors, ExprTree.anchors, ExprTree.expr, Expr.leaves, anchorLines]

end Callee

namespace Pending

/-- What has been read of a statement before an operand. -/
def anchors : Pending → List (Option Int)
  | bottom purpose => purpose.anchors
  | unary _ line outer => outer.anchors ++ [some ↑line]
  | binary left _ line outer => outer.anchors ++ left.anchors ++ [some ↑line]
  | paren outer => outer.anchors ++ [none]
  | index array outer => outer.anchors ++ array.anchors ++ [none]
  | argument callee earlier outer =>
    outer.anchors ++ callee.anchors ++ none ::
      (earlier.reverse.map ExprTree.anchors).flatMap (· ++ [none])
  | size line element outer => outer.anchors ++ some ↑line :: element.anchors ++ [none]

/-- Applying operators that wait changes nothing in what has been read. -/
theorem apply_anchors (level : Nat) (e : ExprTree) (p : Pending) :
    (p.apply level e).2.anchors ++ (p.apply level e).1.anchors = p.anchors ++ e.anchors := by
  induction p generalizing e with
  | unary op line outer ih =>
    rw [apply, ih]
    simp [anchors, ExprTree.anchors, ExprTree.expr, Expr.leaves, anchorLines]
  | binary left op line outer ih =>
    rw [apply]
    split
    · rw [ih]
      simp [anchors, ExprTree.anchors, ExprTree.expr, Expr.leaves, anchorLines]
    · rfl
  | _ => rfl

end Pending

/-! ## Places in an expression -/

namespace ExprSpot

/-- What has been read of a statement up to a place in an expression of it. -/
def anchors : ExprSpot → List (Option Int)
  | operand p => p.anchors
  | firstArgument callee p => p.anchors ++ callee.anchors ++ [none]
  | name w p => p.anchors ++ [w.anchor]
  | member object w p => p.anchors ++ object.anchors ++ [none, w.anchor]
  | operator e p => p.anchors ++ e.anchors
  | dot e p => p.anchors ++ e.anchors ++ [none]
  | className c p => p.anchors ++ [c.anchor]
  | classDot c p => p.anchors ++ [c.anchor, none]
  | classMember c _ p => p.anchors ++ [c.anchor, none, none]
  | newWord line p => p.anchors ++ [some ↑line]
  | newClass line c p => p.anchors ++ [some ↑line, c.anchor]
  | newParen line _ p => p.anchors ++ [some ↑line, none, none]
  | newType line element p => p.anchors ++ some ↑line :: element.anchors

end ExprSpot

/-- The lines of the anchors in a parse tree. -/
def StmtTree.anchors (s : StmtTree) : List (Option Int) := anchorLines s.stmt.leaves

/-- What has been read of a statement up to where a token leads. -/
def ExprStep.anchors : ExprStep → List (Option Int)
  | inside s => s.anchors
  | statement s => s.anchors
  | ifBranch line condition | whileBranch line condition =>
    [some ↑line, none] ++ condition.anchors ++ [none]

namespace ExprSpot

theorem start_anchors {t : Token} {p : Pending} {s : ExprSpot} (h : start t p = some s) :
    AllTaken s.anchors (p.anchors ++ [t.anchor]) := by
  unfold start at h
  split at h <;> cases h <;>
    simp [anchors, Pending.anchors, ExprTree.anchors, ExprTree.expr, Expr.leaves,
      anchorLines]

variable {t : Token} {e : ExprTree} {p : Pending} {step : ExprStep}

theorem CloseLeads.anchors (h : CloseLeads t e p step) :
    AllTaken step.anchors (p.anchors ++ e.anchors ++ [t.anchor]) := by
  cases h with
  | call =>
    simp [ExprStep.anchors, ExprSpot.anchors, Pending.anchors, Callee.call_anchors,
      argumentAnchors, separated_concat]
  | paren | element | newArray =>
    simp [ExprStep.anchors, ExprSpot.anchors, Pending.anchors, ExprTree.anchors, ExprTree.expr,
      Expr.leaves, anchorLines, TypeRef.anchors]
  | nextArgument => simp [ExprStep.anchors, ExprSpot.anchors, Pending.anchors]
  | ifCondition | whileCondition => simp [ExprStep.anchors, Pending.anchors, Purpose.anchors]
  | expression | assigned | initial | returned =>
    simp [ExprStep.anchors, Pending.anchors, Purpose.anchors, StmtTree.anchors, StmtTree.stmt,
      Stmt.leaves, Expr.leaves?, ExprTree.anchors, TypeRef.anchors, anchorLines]

theorem OperatorLeads.anchors (h : OperatorLeads t e p step) :
    AllTaken step.anchors (p.anchors ++ e.anchors ++ [t.anchor]) := by
  cases h with
  | dot | index | target =>
    simp [ExprStep.anchors, ExprSpot.anchors, Pending.anchors, Purpose.anchors]
  | @binary _ op left outer _ ha =>
    have happly := Pending.apply_anchors op.level e p
    rw [ha] at happly
    simp [← happly, ExprStep.anchors, ExprSpot.anchors, Pending.anchors]
  | close ha h =>
    have happly := Pending.apply_anchors 0 e p
    rw [ha] at happly
    rw [← happly]
    exact h.anchors

/-- A token in an expression adds its line, or a place without one, to the lines of the
anchors that have been read. -/
theorem Leads.anchors {s : ExprSpot} (h : Leads t s step) (hs : s.Faithful) :
    AllTaken step.anchors (s.anchors ++ [t.anchor]) := by
  cases h with
  | start h => exact start_anchors h
  | noArguments =>
    simp [ExprStep.anchors, ExprSpot.anchors, Callee.call_anchors, argumentAnchors, separated]
  | firstArgument h =>
    simpa [ExprStep.anchors, ExprSpot.anchors, Pending.anchors] using start_anchors h
  | var h | operator h => exact h.anchors
  | field h =>
    simpa [ExprSpot.anchors, ExprTree.anchors, ExprTree.expr, Expr.leaves, anchorLines]
      using h.anchors
  | newType _ h => simp [ExprStep.anchors, ExprSpot.anchors, Token.type?_anchors h]
  | brackets => simp [ExprStep.anchors, ExprSpot.anchors, TypeRef.anchors_array hs.1]
  | localCall | virtualCall | member | classDot | classMember | staticCall | newClass | newParen
  | size => simp [ExprStep.anchors, ExprSpot.anchors, Pending.anchors, Callee.anchors]
  | length | classSize | classBrackets | newObject =>
    simp [ExprStep.anchors, ExprSpot.anchors, Pending.anchors, ExprTree.anchors, ExprTree.expr,
      Expr.leaves, TypeRef.anchors, TypeRef.leaves, anchorLines]

end ExprSpot

end IcFront
