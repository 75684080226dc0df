import IcFront.Syntax.Tree

/-!
# Syntax trees with other lines

`Program.reline f` is a program with `f n` for each line `n` in it, and otherwise the same.
The line of a program itself stays: it is that of no token.

Where a tree has the places of tokens for lines, `reline` puts in the lines that they are
on.
-/

namespace IcFront

/-- What becomes of a line of a tree. -/
def newLine (f : Nat → Nat) (line : Int) : Int := f line.toNat

@[simp] theorem newLine_newLine (f g : Nat → Nat) (line : Int) :
    newLine f (newLine g line) = newLine (f ∘ g) line := rfl

namespace TypeRef

/-- A type with another line. -/
def reline (f : Nat → Nat) (t : TypeRef) : TypeRef := { t with line := newLine f t.line }

@[simp] theorem isVoid_reline (f : Nat → Nat) (t : TypeRef) : (t.reline f).isVoid = t.isVoid := rfl

@[simp] theorem reline_reline (f g : Nat → Nat) (t : TypeRef) :
    (t.reline g).reline f = t.reline (f ∘ g) := rfl

end TypeRef

namespace Expr

variable (f : Nat → Nat)

mutual

/-- An expression with other lines. -/
def reline : Expr → Expr
  | var name l => .var name (newLine f l)
  | field object name l => .field object.reline name (newLine f l)
  | element array index l => .element array.reline index.reline (newLine f l)
  | staticCall className name arguments l =>
    .staticCall className name (relineAll arguments) (newLine f l)
  | virtualCall receiver name arguments l =>
    .virtualCall receiver.reline name (relineAll arguments) (newLine f l)
  | localCall name arguments l => .localCall name (relineAll arguments) (newLine f l)
  | this l => .this (newLine f l)
  | newObject className l => .newObject className (newLine f l)
  | newArray type size l => .newArray (type.reline f) size.reline (newLine f l)
  | length array l => .length array.reline (newLine f l)
  | binary op left right l => .binary op left.reline right.reline (newLine f l)
  | unary op operand l => .unary op operand.reline (newLine f l)
  | literal value l => .literal value (newLine f l)
  | paren inner l => .paren inner.reline (newLine f l)

/-- The expressions of a list with other lines. -/
def relineAll : List Expr → List Expr
  | [] => []
  | e :: es => e.reline :: relineAll es

end

@[simp] theorem line_reline (e : Expr) : (e.reline f).line = newLine f e.line := by
  cases e <;> rfl

@[simp] theorem isLocation_reline (e : Expr) : (e.reline f).isLocation = e.isLocation := by
  cases e <;> rfl

@[simp] theorem isCall_reline (e : Expr) : (e.reline f).isCall = e.isCall := by cases e <;> rfl

mutual

@[simp] theorem reline_reline (g : Nat → Nat) (e : Expr) :
    (e.reline g).reline f = e.reline (f ∘ g) := by
  cases e with
  | var name l | this l | newObject c l | literal value l => rfl
  | field object name l => simp [reline, reline_reline g object]
  | element array index l => simp [reline, reline_reline g array, reline_reline g index]
  | staticCall c name arguments l => simp [reline, relineAll_relineAll g arguments]
  | virtualCall receiver name arguments l =>
    simp [reline, reline_reline g receiver, relineAll_relineAll g arguments]
  | localCall name arguments l => simp [reline, relineAll_relineAll g arguments]
  | newArray type size l => simp [reline, reline_reline g size]
  | length array l => simp [reline, reline_reline g array]
  | binary op left right l => simp [reline, reline_reline g left, reline_reline g right]
  | unary op operand l => simp [reline, reline_reline g operand]
  | paren inner l => simp [reline, reline_reline g inner]

theorem relineAll_relineAll (g : Nat → Nat) (es : List Expr) :
    relineAll f (relineAll g es) = relineAll (f ∘ g) es := by
  cases es with
  | nil => rfl
  | cons e es => simp [relineAll, reline_reline g e, relineAll_relineAll g es]

end

end Expr

namespace Stmt

variable (f : Nat → Nat)

mutual

/-- A statement with other lines. -/
def reline : Stmt Expr → Stmt Expr
  | assign target value l => .assign (target.reline f) (value.reline f) (newLine f l)
  | call e l => .call (e.reline f) (newLine f l)
  | return_ value l => .return_ (value.map (·.reline f)) (newLine f l)
  | ifThen condition body l => .ifThen (condition.reline f) body.reline (newLine f l)
  | ifElse condition body otherwise l =>
    .ifElse (condition.reline f) body.reline otherwise.reline (newLine f l)
  | while_ condition body l => .while_ (condition.reline f) body.reline (newLine f l)
  | break_ l => .break_ (newLine f l)
  | continue_ l => .continue_ (newLine f l)
  | block body l scope => .block (relineAll body) (newLine f l) scope
  | localVar type name initial l =>
    .localVar (type.reline f) name (initial.map (·.reline f)) (newLine f l)

/-- The statements of a list with other lines. -/
def relineAll : List (Stmt Expr) → List (Stmt Expr)
  | [] => []
  | s :: ss => s.reline :: relineAll ss

end

mutual

theorem reline_reline (g : Nat → Nat) (s : Stmt Expr) :
    (s.reline g).reline f = s.reline (f ∘ g) := by
  cases s with
  | assign target value l | call e l | break_ l | continue_ l => simp [reline]
  | return_ value l | localVar type name value l =>
    cases value <;> simp [reline]
  | ifThen condition body l | while_ condition body l =>
    simp [reline, reline_reline g body]
  | ifElse condition body otherwise l =>
    simp [reline, reline_reline g body, reline_reline g otherwise]
  | block body l scope => simp [reline, relineAll_relineAll g body]

theorem relineAll_relineAll (g : Nat → Nat) (ss : List (Stmt Expr)) :
    relineAll f (relineAll g ss) = relineAll (f ∘ g) ss := by
  cases ss with
  | nil => rfl
  | cons s ss => simp [relineAll, reline_reline g s, relineAll_relineAll g ss]

end

end Stmt

/-- A field with other lines. -/
def Field.reline (f : Nat → Nat) (x : Field) : Field :=
  { x with type := x.type.reline f, line := newLine f x.line }

/-- A formal parameter with other lines. -/
def Formal.reline (f : Nat → Nat) (x : Formal) : Formal :=
  { x with type := x.type.reline f, line := newLine f x.line }

/-- The body of a method with other lines. -/
def MethodForm.reline (f : Nat → Nat) (x : MethodForm Expr) : MethodForm Expr :=
  x.withBody (Stmt.relineAll f x.body)

/-- A method with other lines. -/
def Method.reline (f : Nat → Nat) (m : Method Expr) : Method Expr :=
  { m with
    form := m.form.reline f
    type := m.type.reline f
    formals := m.formals.map (Formal.reline f)
    line := newLine f m.line }

/-- A class with other lines. -/
def ClassDecl.reline (f : Nat → Nat) (c : ClassDecl Expr) : ClassDecl Expr :=
  { c with
    fields := c.fields.map (Field.reline f)
    methods := c.methods.map (Method.reline f)
    line := newLine f c.line }

/-- A program with other lines. -/
def Program.reline (f : Nat → Nat) (p : Program Expr) : Program Expr :=
  { p with classes := p.classes.map (ClassDecl.reline f) }

section Compose

variable (f g : Nat → Nat)

theorem MethodForm.reline_reline (x : MethodForm Expr) :
    (x.reline g).reline f = x.reline (f ∘ g) := by
  cases x <;> simp [reline, withBody, body, Stmt.relineAll_relineAll]

theorem Method.reline_reline (m : Method Expr) : (m.reline g).reline f = m.reline (f ∘ g) := by
  simp [reline, MethodForm.reline_reline, Function.comp_def, Formal.reline]

theorem ClassDecl.reline_reline (c : ClassDecl Expr) :
    (c.reline g).reline f = c.reline (f ∘ g) := by
  simp [reline, Method.reline_reline, Function.comp_def, Field.reline]

/-- Lines put in twice are put in once, the one after the other. -/
theorem Program.reline_reline (p : Program Expr) : (p.reline g).reline f = p.reline (f ∘ g) := by
  simp [reline, ClassDecl.reline_reline, Function.comp_def]

end Compose

end IcFront
