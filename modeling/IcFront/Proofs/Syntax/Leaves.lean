import IcFront.Proofs.Syntax.Marks
import IcFront.Proofs.Syntax.Shape

/-!
# The tokens that lines come from

A node of a syntax tree has the line of its *anchor*, one of the tokens that it is written
with. `Program.leaves` writes a tree out as `Program.marks` does and says of each token
which line of the tree is its own: the line of a declaration is that of the name that is
declared, the line of a type that of its base, the line of an operation that of its
operator.

Five kinds of node have no token for an anchor and take the line of what they start with:
elements, lengths, expressions in parentheses, assignments and calls as statements
(`Program.Inherits`).
-/

namespace IcFront

/-- A token of a tree: what it says, and the line of the node that it is the anchor of, if
it is the anchor of one. -/
structure Leaf where
  mark : Mark
  line : Option Int
  deriving DecidableEq, Repr

namespace Leaf

/-- A token that a node takes its line from. -/
def anchor (m : Mark) (line : Int) : Leaf := ⟨m, some line⟩

/-- A token that no node takes its line from. -/
def plain (m : Mark) : Leaf := ⟨m, none⟩

@[simp] theorem anchor_mark (m : Mark) (line : Int) : (anchor m line).mark = m := rfl
@[simp] theorem anchor_line (m : Mark) (line : Int) : (anchor m line).line = some line := rfl
@[simp] theorem plain_mark (m : Mark) : (plain m).mark = m := rfl
@[simp] theorem plain_line (m : Mark) : (plain m).line = none := rfl

end Leaf

/-- A type as tokens: its base is its anchor. -/
def TypeRef.leaves (t : TypeRef) : List Leaf :=
  .anchor t.base.mark t.line :: List.replicate t.dimension.toNat (.plain .brackets)

@[simp] theorem TypeRef.leaves_mark (t : TypeRef) : t.leaves.map Leaf.mark = t.marks := by
  simp [leaves, marks]

/-- Arguments as tokens, each already written out. -/
def argumentLeaves (arguments : List (List Leaf)) : List Leaf :=
  .plain (.sign .lparen) :: separated (.plain (.sign .comma)) arguments ++
    [.plain (.sign .rparen)]

theorem argumentLeaves_mark (arguments : List (List Leaf)) :
    (argumentLeaves arguments).map Leaf.mark =
      argumentMarks (arguments.map (·.map Leaf.mark)) := by
  simp [argumentLeaves, argumentMarks, map_separated, listed_eq_separated]

/-! ## Expressions -/

namespace Expr

mutual

/-- An expression as tokens. -/
def leaves : Expr → List Leaf
  | var name l => [.anchor (.name name) l]
  | field object name l =>
    object.leaves ++ [.plain (.sign .dot), .anchor (.name name) l]
  | element array index _ =>
    array.leaves ++ .plain (.sign .lbracket) :: index.leaves ++ [.plain (.sign .rbracket)]
  | staticCall className name arguments l =>
    [.anchor (.className className) l, .plain (.sign .dot), .plain (.name name)] ++
      argumentLeaves (leavesOf arguments)
  | virtualCall receiver name arguments l =>
    receiver.leaves ++ [.plain (.sign .dot), .anchor (.name name) l] ++
      argumentLeaves (leavesOf arguments)
  | localCall name arguments l =>
    .anchor (.name name) l :: argumentLeaves (leavesOf arguments)
  | this l => [.anchor (.keyword .this) l]
  | newObject className l =>
    [.anchor (.keyword .new) l, .plain (.className className), .plain (.sign .lparen),
      .plain (.sign .rparen)]
  | newArray type size l =>
    .anchor (.keyword .new) l :: type.leaves ++ .plain (.sign .lbracket) :: size.leaves ++
      [.plain (.sign .rbracket)]
  | length array _ => array.leaves ++ [.plain (.sign .dot), .plain (.keyword .length)]
  | binary op left right l => left.leaves ++ .anchor (.sign op.sign) l :: right.leaves
  | unary op operand l => .anchor (.sign op.sign) l :: operand.leaves
  | literal value l => [.anchor value.mark l]
  | paren inner _ => .plain (.sign .lparen) :: inner.leaves ++ [.plain (.sign .rparen)]

/-- Each expression of a list as tokens. -/
def leavesOf : List Expr → List (List Leaf)
  | [] => []
  | e :: es => e.leaves :: leavesOf es

end

mutual

theorem leaves_mark (e : Expr) : e.leaves.map Leaf.mark = e.marks := by
  cases e with
  | var name l | this l | newObject c l | literal value l => simp [leaves, marks]
  | field object name l => simp [leaves, marks, leaves_mark object]
  | element array index l => simp [leaves, marks, leaves_mark array, leaves_mark index]
  | staticCall c name arguments l =>
    simp [leaves, marks, argumentLeaves_mark, leavesOf_mark arguments]
  | virtualCall receiver name arguments l =>
    simp [leaves, marks, leaves_mark receiver, argumentLeaves_mark, leavesOf_mark arguments]
  | localCall name arguments l =>
    simp [leaves, marks, argumentLeaves_mark, leavesOf_mark arguments]
  | newArray type size l => simp [leaves, marks, leaves_mark size]
  | length array l => simp [leaves, marks, leaves_mark array]
  | binary op left right l => simp [leaves, marks, leaves_mark left, leaves_mark right]
  | unary op operand l => simp [leaves, marks, leaves_mark operand]
  | paren inner l => simp [leaves, marks, leaves_mark inner]

theorem leavesOf_mark (es : List Expr) : (leavesOf es).map (·.map Leaf.mark) = marksOf es := by
  cases es with
  | nil => rfl
  | cons e es => simp [leavesOf, marksOf, leaves_mark e, leavesOf_mark es]

end

theorem leavesOf_eq_map (es : List Expr) : leavesOf es = es.map leaves := by
  induction es with
  | nil => rfl
  | cons e es ih => rw [leavesOf, ih, List.map_cons]

/-- An expression that may be left out as tokens. -/
def leaves? : Option Expr → List Leaf
  | none => []
  | some e => e.leaves

theorem leaves?_mark (e : Option Expr) : (leaves? e).map Leaf.mark = marks? e := by
  cases e with
  | none => rfl
  | some e => exact e.leaves_mark

/-- An expression without an anchor has the line of its first part. -/
def Inherits : Expr → Prop
  | element array _ l | length array l => l = array.line
  | paren inner l => l = inner.line
  | _ => True

end Expr

/-! ## Statements -/

namespace Stmt

mutual

/-- A statement as tokens. -/
def leaves : Stmt Expr → List Leaf
  | assign target value _ =>
    target.leaves ++ .plain (.sign .assign) :: value.leaves ++ [.plain (.sign .semicolon)]
  | call e _ => e.leaves ++ [.plain (.sign .semicolon)]
  | return_ value l =>
    .anchor (.keyword .return_) l :: Expr.leaves? value ++ [.plain (.sign .semicolon)]
  | ifThen condition body l =>
    [.anchor (.keyword .if_) l, .plain (.sign .lparen)] ++ condition.leaves ++
      .plain (.sign .rparen) :: body.leaves
  | ifElse condition body otherwise l =>
    [.anchor (.keyword .if_) l, .plain (.sign .lparen)] ++ condition.leaves ++
      .plain (.sign .rparen) :: body.leaves ++ .plain (.keyword .else_) :: otherwise.leaves
  | while_ condition body l =>
    [.anchor (.keyword .while_) l, .plain (.sign .lparen)] ++ condition.leaves ++
      .plain (.sign .rparen) :: body.leaves
  | break_ l => [.anchor (.keyword .break_) l, .plain (.sign .semicolon)]
  | continue_ l => [.anchor (.keyword .continue_) l, .plain (.sign .semicolon)]
  | block body l _ =>
    .anchor (.sign .lbrace) l :: leavesOf body ++ [.plain (.sign .rbrace)]
  | localVar type name none l =>
    type.leaves ++ [.anchor (.name name) l, .plain (.sign .semicolon)]
  | localVar type name (some initial) l =>
    type.leaves ++ [.anchor (.name name) l, .plain (.sign .assign)] ++ initial.leaves ++
      [.plain (.sign .semicolon)]

/-- Statements as tokens, one after the other. -/
def leavesOf : List (Stmt Expr) → List Leaf
  | [] => []
  | s :: ss => s.leaves ++ leavesOf ss

end

mutual

theorem leaves_mark (s : Stmt Expr) : s.leaves.map Leaf.mark = s.marks := by
  cases s with
  | assign target value l => simp [leaves, marks, Expr.leaves_mark]
  | call e l => simp [leaves, marks, Expr.leaves_mark]
  | return_ value l => simp [leaves, marks, Expr.leaves?_mark]
  | ifThen condition body l => simp [leaves, marks, Expr.leaves_mark, leaves_mark body]
  | ifElse condition body otherwise l =>
    simp [leaves, marks, Expr.leaves_mark, leaves_mark body, leaves_mark otherwise]
  | while_ condition body l => simp [leaves, marks, Expr.leaves_mark, leaves_mark body]
  | break_ l | continue_ l => simp [leaves, marks]
  | block body l scope => simp [leaves, marks, leavesOf_mark body]
  | localVar type name initial l =>
    cases initial <;> simp [leaves, marks, Expr.leaves_mark]

theorem leavesOf_mark (ss : List (Stmt Expr)) : (leavesOf ss).map Leaf.mark = marksOf ss := by
  cases ss with
  | nil => rfl
  | cons s ss => simp [leavesOf, marksOf, leaves_mark s, leavesOf_mark ss]

end

/-- A statement without an anchor has the line of its first part. -/
def Inherits : Stmt Expr → Prop
  | assign target _ l => l = target.line
  | call e l => l = e.line
  | _ => True

end Stmt

/-! ## Declarations -/

/-- A field as tokens. -/
def Field.leaves (f : Field) : List Leaf :=
  f.type.leaves ++ [.anchor (.name f.name) f.line, .plain (.sign .semicolon)]

theorem Field.leaves_mark (f : Field) : f.leaves.map Leaf.mark = f.marks := by
  simp [leaves, marks]

/-- A formal parameter as tokens. -/
def Formal.leaves (f : Formal) : List Leaf :=
  f.type.leaves ++ [.anchor (.name f.name) f.line]

theorem Formal.leaves_mark (f : Formal) : f.leaves.map Leaf.mark = f.marks := by
  simp [leaves, marks]

/-- The braces of a body with its statements. -/
def bodyLeaves (body : List (Stmt Expr)) : List Leaf :=
  .plain (.sign .lbrace) :: Stmt.leavesOf body ++ [.plain (.sign .rbrace)]

/-- What stands after the signature of a method. -/
def MethodForm.closingLeaves : MethodForm Expr → List Leaf
  | library => [.plain (.sign .semicolon)]
  | virtual body | static body | unspecified body => bodyLeaves body

theorem MethodForm.closingLeaves_mark (f : MethodForm Expr) :
    f.closingLeaves.map Leaf.mark = f.closing := by
  cases f <;> simp [closingLeaves, closing, bodyLeaves, bodyMarks, Stmt.leavesOf_mark]

/-- A method as tokens. -/
def Method.leaves (m : Method Expr) : List Leaf :=
  m.form.opening.map .plain ++ m.type.leaves ++ .anchor (.name m.name) m.line ::
    argumentLeaves (m.formals.map Formal.leaves) ++ m.form.closingLeaves

theorem Method.leaves_mark (m : Method Expr) : m.leaves.map Leaf.mark = m.marks := by
  simp [leaves, marks, argumentLeaves_mark, MethodForm.closingLeaves_mark, Function.comp_def,
    Formal.leaves_mark]

/-- The name of a class, its anchor, and what it extends. -/
def classHeadingLeaves (name : String) (line : Int) (superclass : Option String) : List Leaf :=
  [.plain (.keyword .class_), .anchor (.className name) line] ++
    match superclass with
    | none => []
    | some superclass => [.plain (.keyword .extends_), .plain (.className superclass)]

theorem classHeadingLeaves_mark (name : String) (line : Int) (superclass : Option String) :
    (classHeadingLeaves name line superclass).map Leaf.mark = classHeading name superclass := by
  cases superclass <;> rfl

/-- A class as tokens. -/
def ClassDecl.leaves (c : ClassDecl Expr) : List Leaf :=
  classHeadingLeaves c.name c.line c.superclass ++
    .plain (.sign .lbrace) :: c.fields.flatMap Field.leaves ++ c.methods.flatMap Method.leaves ++
    [.plain (.sign .rbrace)]

theorem ClassDecl.leaves_mark (c : ClassDecl Expr) : c.leaves.map Leaf.mark = c.marks := by
  simp [leaves, marks, classHeadingLeaves_mark, List.map_flatMap, Field.leaves_mark,
    Method.leaves_mark]

/-- A program as tokens. -/
def Program.leaves (p : Program Expr) : List Leaf := p.classes.flatMap ClassDecl.leaves

/-- The tokens of a program, apart from the lines, are its marks. -/
theorem Program.leaves_mark (p : Program Expr) : p.leaves.map Leaf.mark = p.marks := by
  simp [leaves, marks, List.map_flatMap, ClassDecl.leaves_mark]

/-- Every statement and expression of a program that has no anchor has the line of its
first part. -/
def Program.Inherits (p : Program Expr) : Prop :=
  ∀ c ∈ p.classes, ∀ m ∈ c.methods, Stmt.AllEverywhere Stmt.Inherits Expr.Inherits m.form.body

end IcFront
