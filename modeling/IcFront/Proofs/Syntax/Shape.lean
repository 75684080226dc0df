import IcFront.Grammar.Meaning

/-!
# The shape of a program in the language

Two conditions on syntax trees, each on every node of a tree (`Everywhere`).

A tree is *faithful* if its tokens show all of it: operands bind at least as
tightly as their places require, so that parentheses stand where they are needed;
no `else` stands where an inner `if` would take it (`endsOpen`); numbers have no
sign and types no negative dimension. A tree is *lawful* if it keeps the rules that
the grammar leaves open: what is declared is not void, only locations are assigned
to, and only calls are statements.
-/

namespace IcFront

/-! ## Expressions -/

namespace Expr

/-- How tightly an expression binds: its outermost operator's level, six for an
operator before its operand, and seven for what needs no parentheses anywhere. -/
def level : Expr → Nat
  | binary op _ _ _ => op.level
  | unary .. => 6
  | _ => 7

mutual

/-- A condition holds of an expression and of every expression in it. -/
def Everywhere (P : Expr → Prop) : Expr → Prop
  | var name l => P (var name l)
  | field object name l => P (field object name l) ∧ object.Everywhere P
  | element array index l =>
    P (element array index l) ∧ array.Everywhere P ∧ index.Everywhere P
  | staticCall c name arguments l =>
    P (staticCall c name arguments l) ∧ AllEverywhere P arguments
  | virtualCall receiver name arguments l =>
    P (virtualCall receiver name arguments l) ∧ receiver.Everywhere P ∧
      AllEverywhere P arguments
  | localCall name arguments l => P (localCall name arguments l) ∧ AllEverywhere P arguments
  | this l => P (this l)
  | newObject c l => P (newObject c l)
  | newArray type size l => P (newArray type size l) ∧ size.Everywhere P
  | length array l => P (length array l) ∧ array.Everywhere P
  | binary op left right l =>
    P (binary op left right l) ∧ left.Everywhere P ∧ right.Everywhere P
  | unary op operand l => P (unary op operand l) ∧ operand.Everywhere P
  | literal value l => P (literal value l)
  | paren inner l => P (paren inner l) ∧ inner.Everywhere P

/-- A condition holds of every expression of a list and in one. -/
def AllEverywhere (P : Expr → Prop) : List Expr → Prop
  | [] => True
  | e :: es => e.Everywhere P ∧ AllEverywhere P es

end

theorem allEverywhere_iff {P : Expr → Prop} {es : List Expr} :
    AllEverywhere P es ↔ ∀ e ∈ es, e.Everywhere P := by
  induction es with
  | nil => simp [AllEverywhere]
  | cons e es ih => simp [AllEverywhere, ih]

/-- The tokens of an expression show what its operands are. The right operand
binds tighter than the operator, the left one may bind as tightly. -/
def Faithful : Expr → Prop
  | field object _ _ => object.level = 7
  | element array _ _ => array.level = 7
  | virtualCall receiver _ _ _ => receiver.level = 7
  | length array _ => array.level = 7
  | binary op left right _ => op.level ≤ left.level ∧ op.level < right.level
  | unary _ operand _ => 6 ≤ operand.level
  | newArray type _ _ => 0 ≤ type.dimension
  | literal (.integer n) _ => 0 ≤ n
  | _ => True

/-- An expression by itself keeps the rules that the grammar leaves open. -/
def Lawful : Expr → Prop
  | newArray type _ _ => type.isVoid = false
  | _ => True

end Expr

/-! ## Statements -/

namespace Stmt

/-- A statement ends in an `if` that could still have an `else`. -/
def endsOpen : Stmt Expr → Bool
  | ifThen .. => true
  | ifElse _ _ otherwise _ => otherwise.endsOpen
  | while_ _ body _ => body.endsOpen
  | _ => false

mutual

/-- Conditions hold of a statement and of every statement and expression in it. -/
def Everywhere (P : Stmt Expr → Prop) (Q : Expr → Prop) : Stmt Expr → Prop
  | assign target value l =>
    P (assign target value l) ∧ target.Everywhere Q ∧ value.Everywhere Q
  | call e l => P (call e l) ∧ e.Everywhere Q
  | return_ value l => P (return_ value l) ∧ ∀ e ∈ value, e.Everywhere Q
  | ifThen condition body l =>
    P (ifThen condition body l) ∧ condition.Everywhere Q ∧ body.Everywhere P Q
  | ifElse condition body otherwise l =>
    P (ifElse condition body otherwise l) ∧ condition.Everywhere Q ∧ body.Everywhere P Q ∧
      otherwise.Everywhere P Q
  | while_ condition body l =>
    P (while_ condition body l) ∧ condition.Everywhere Q ∧ body.Everywhere P Q
  | break_ l => P (break_ l)
  | continue_ l => P (continue_ l)
  | block body l scope => P (block body l scope) ∧ AllEverywhere P Q body
  | localVar type name initial l =>
    P (localVar type name initial l) ∧ ∀ e ∈ initial, e.Everywhere Q

/-- Conditions hold of every statement of a list and in one. -/
def AllEverywhere (P : Stmt Expr → Prop) (Q : Expr → Prop) : List (Stmt Expr) → Prop
  | [] => True
  | s :: ss => s.Everywhere P Q ∧ AllEverywhere P Q ss

end

/-- The tokens of a statement show what its parts are. An `else` belongs to the
innermost `if` that could have it. -/
def Faithful : Stmt Expr → Prop
  | ifElse _ body _ _ => body.endsOpen = false
  | localVar type _ _ _ => 0 ≤ type.dimension
  | _ => True

/-- A statement by itself keeps the rules that the grammar leaves open. -/
def Lawful : Stmt Expr → Prop
  | assign target _ _ => target.isLocation = true
  | call e _ => e.isCall = true
  | localVar type _ _ _ => type.isVoid = false
  | _ => True

end Stmt

/-! ## Programs -/

/-- A method whose tokens show all of it. It is declared static or virtual. -/
structure Method.Faithful (m : Method Expr) : Prop where
  type : 0 ≤ m.type.dimension
  formals : ∀ f ∈ m.formals, 0 ≤ f.type.dimension ∧ f.standIn = none
  specified : ∀ body, m.form ≠ .unspecified body
  body : Stmt.AllEverywhere Stmt.Faithful Expr.Faithful m.form.body

/-- A method that keeps the rules of the language. It may be void itself. -/
structure Method.Lawful (m : Method Expr) : Prop where
  formals : ∀ f ∈ m.formals, f.type.isVoid = false
  body : Stmt.AllEverywhere Stmt.Lawful Expr.Lawful m.form.body

/-- A class whose tokens show all of it. -/
structure ClassDecl.Faithful (c : ClassDecl Expr) : Prop where
  fields : ∀ f ∈ c.fields, 0 ≤ f.type.dimension
  methods : ∀ m ∈ c.methods, m.Faithful

/-- A class that keeps the rules of the language. -/
structure ClassDecl.Lawful (c : ClassDecl Expr) : Prop where
  fields : ∀ f ∈ c.fields, f.type.isVoid = false
  methods : ∀ m ∈ c.methods, m.Lawful

/-- A program whose tokens show all of it. -/
def Program.Faithful (p : Program Expr) : Prop := ∀ c ∈ p.classes, c.Faithful

/-- A program that keeps the rules of the language. -/
def Program.Lawful (p : Program Expr) : Prop := ∀ c ∈ p.classes, c.Lawful

end IcFront
