import IcFront.Grammar.Meaning

/-!
# What tokens say

A `Mark` is a token apart from the place it stands at and from the ways to write
it: names are told apart by their texts and literals by their values. Here syntax
trees are written out as marks, each part in the place that the grammar gives it
(`Program.marks`). Fields are declared one at a time, before the methods.
-/

namespace IcFront

/-- What a token says. -/
inductive Mark
  | keyword (k : Keyword)
  | sign (s : Sign)
  | className (text : String)
  | name (text : String)
  | integer (value : Nat)
  /-- A string literal, by the text that it stands for. -/
  | text (value : String)
  | brackets
  deriving DecidableEq, Repr

/-- The kind of token that says something. -/
def Mark.terminal : Mark → Terminal
  | keyword k => .keyword k
  | sign s => .sign s
  | className _ => .className
  | name _ => .name
  | integer _ => .integer
  | text _ => .text
  | brackets => .brackets

/-- What a token says. -/
def Token.mark (t : Token) : Mark :=
  match t.terminal with
  | .keyword k => .keyword k
  | .sign s => .sign s
  | .className => .className t.text
  | .name => .name t.text
  | .integer => .integer (digitsValue t.text.toList)
  | .text => .text (quotedValue t.text)
  | .brackets => .brackets

/-! ## Lists with commas -/

section Separated

variable {α β : Type} (sep : α)

/-- Lists put together, with a separator between two. -/
def separated : List (List α) → List α
  | [] => []
  | x :: xs => x ++ xs.flatMap (sep :: ·)

theorem map_separated (f : α → β) (xs : List (List α)) :
    (separated sep xs).map f = separated (f sep) (xs.map (·.map f)) := by
  cases xs with
  | nil => rfl
  | cons x xs => simp [separated, List.map_flatMap, List.flatMap_map]

/-- Lists that each have a separator after them, with one more list. -/
theorem separated_concat (xs : List (List α)) (x : List α) :
    separated sep (xs ++ [x]) = xs.flatMap (· ++ [sep]) ++ x := by
  induction xs with
  | nil => simp [separated]
  | cons y ys ih =>
    have hrest : y ++ (ys ++ [x]).flatMap (sep :: ·) =
        (y ++ [sep]) ++ separated sep (ys ++ [x]) := by
      cases ys <;> simp [separated]
    rw [List.cons_append, separated, hrest, ih, List.flatMap_cons, List.append_assoc,
      List.append_assoc, List.append_assoc]

/-- A separator after a list, and one after each list in it. -/
theorem separated_append {xs : List (List α)} (h : xs ≠ []) :
    separated sep xs ++ [sep] = xs.flatMap (· ++ [sep]) := by
  obtain ⟨ys, y, rfl⟩ : ∃ ys y, xs = ys ++ [y] :=
    ⟨xs.dropLast, xs.getLast h, (List.dropLast_concat_getLast h).symm⟩
  simp [separated_concat]

end Separated

/-- Things written one after the other, with a comma between two. -/
def listed : List (List Mark) → List Mark
  | [] => []
  | x :: xs => x ++ xs.flatMap (.sign .comma :: ·)

theorem listed_eq_separated (xs : List (List Mark)) :
    listed xs = separated (.sign .comma) xs := by
  cases xs <;> rfl

@[simp] theorem listed_nil : listed [] = [] := rfl

@[simp] theorem listed_singleton (x : List Mark) : listed [x] = x := by simp [listed]

theorem listed_cons_cons (x y : List Mark) (zs : List (List Mark)) :
    listed (x :: y :: zs) = x ++ .sign .comma :: listed (y :: zs) := by
  simp [listed]

/-- Things that each have a comma after them make a list with one more thing. -/
theorem listed_concat (xs : List (List Mark)) (x : List Mark) :
    listed (xs ++ [x]) = xs.flatMap (· ++ [.sign .comma]) ++ x := by
  rw [listed_eq_separated, separated_concat]

/-- A comma after a list, and one after each thing of it. -/
theorem listed_comma {xs : List (List Mark)} (h : xs ≠ []) :
    listed xs ++ [.sign .comma] = xs.flatMap (· ++ [.sign .comma]) := by
  rw [listed_eq_separated, separated_append _ h]

theorem mem_listed {xs : List (List Mark)} {x : List Mark} {m : Mark} (hx : x ∈ xs)
    (hm : m ∈ x) : m ∈ listed xs := by
  cases xs with
  | nil => cases hx
  | cons y ys =>
    rcases List.mem_cons.1 hx with rfl | hx
    · exact List.mem_append_left _ hm
    · exact List.mem_append_right _ (List.mem_flatMap.2 ⟨x, hx, List.mem_cons_of_mem _ hm⟩)

/-! ## Types and operators -/

/-- The word that spells a primitive type. -/
def Primitive.keyword : Primitive → Keyword
  | int => .int
  | boolean => .boolean
  | string => .string
  | void => .void

/-- The base of a type as a mark. -/
def BaseType.mark : BaseType → Mark
  | primitive p => .keyword p.keyword
  | user className => .className className

/-- A type as marks: its base, and brackets for each dimension. -/
def TypeRef.marks (t : TypeRef) : List Mark :=
  t.base.mark :: List.replicate t.dimension.toNat .brackets

/-- The sign that an operator between two operands is written with. -/
def BinaryOp.sign : BinaryOp → Sign
  | or => .or
  | and => .and
  | eq => .eq
  | ne => .ne
  | lt => .lt
  | le => .le
  | gt => .gt
  | ge => .ge
  | add => .plus
  | sub => .minus
  | mul => .star
  | div => .slash
  | mod => .percent

/-- The sign that an operator before an operand is written with. -/
def UnaryOp.sign : UnaryOp → Sign
  | minus => .minus
  | not => .not

/-- A literal as a mark. -/
def Literal.mark : Literal → Mark
  | integer n => .integer n.toNat
  | string s => .text s
  | bool true => .keyword .true_
  | bool false => .keyword .false_
  | null => .keyword .null

/-! ## Expressions and statements -/

/-- Arguments as marks, each already written out. -/
def argumentMarks (arguments : List (List Mark)) : List Mark :=
  .sign .lparen :: listed arguments ++ [.sign .rparen]

theorem mem_argumentMarks {xs : List (List Mark)} {x : List Mark} {m : Mark} (hx : x ∈ xs)
    (hm : m ∈ x) : m ∈ argumentMarks xs :=
  List.mem_append_left _ (List.mem_cons_of_mem _ (mem_listed hx hm))

namespace Expr

mutual

/-- An expression as marks. -/
def marks : Expr → List Mark
  | var name _ => [.name name]
  | field object name _ => object.marks ++ [.sign .dot, .name name]
  | element array index _ => array.marks ++ .sign .lbracket :: index.marks ++ [.sign .rbracket]
  | staticCall className name arguments _ =>
    [.className className, .sign .dot, .name name] ++ argumentMarks (marksOf arguments)
  | virtualCall receiver name arguments _ =>
    receiver.marks ++ [.sign .dot, .name name] ++ argumentMarks (marksOf arguments)
  | localCall name arguments _ => .name name :: argumentMarks (marksOf arguments)
  | this _ => [.keyword .this]
  | newObject className _ =>
    [.keyword .new, .className className, .sign .lparen, .sign .rparen]
  | newArray type size _ =>
    .keyword .new :: type.marks ++ .sign .lbracket :: size.marks ++ [.sign .rbracket]
  | length array _ => array.marks ++ [.sign .dot, .keyword .length]
  | binary op left right _ => left.marks ++ .sign op.sign :: right.marks
  | unary op operand _ => .sign op.sign :: operand.marks
  | literal value _ => [value.mark]
  | paren inner _ => .sign .lparen :: inner.marks ++ [.sign .rparen]

/-- Each expression of a list as marks. -/
def marksOf : List Expr → List (List Mark)
  | [] => []
  | e :: es => e.marks :: marksOf es

end

theorem marksOf_eq_map (es : List Expr) : marksOf es = es.map marks := by
  induction es with
  | nil => rfl
  | cons e es ih => rw [marksOf, ih, List.map_cons]

/-- An expression that may be left out as marks. -/
def marks? : Option Expr → List Mark
  | none => []
  | some e => e.marks

end Expr

namespace Stmt

mutual

/-- A statement as marks. -/
def marks : Stmt Expr → List Mark
  | assign target value _ =>
    target.marks ++ .sign .assign :: value.marks ++ [.sign .semicolon]
  | call e _ => e.marks ++ [.sign .semicolon]
  | return_ value _ => .keyword .return_ :: Expr.marks? value ++ [.sign .semicolon]
  | ifThen condition body _ =>
    [.keyword .if_, .sign .lparen] ++ condition.marks ++ .sign .rparen :: body.marks
  | ifElse condition body otherwise _ =>
    [.keyword .if_, .sign .lparen] ++ condition.marks ++ .sign .rparen :: body.marks ++
      .keyword .else_ :: otherwise.marks
  | while_ condition body _ =>
    [.keyword .while_, .sign .lparen] ++ condition.marks ++ .sign .rparen :: body.marks
  | break_ _ => [.keyword .break_, .sign .semicolon]
  | continue_ _ => [.keyword .continue_, .sign .semicolon]
  | block body _ _ => .sign .lbrace :: marksOf body ++ [.sign .rbrace]
  | localVar type name none _ => type.marks ++ [.name name, .sign .semicolon]
  | localVar type name (some initial) _ =>
    type.marks ++ [.name name, .sign .assign] ++ initial.marks ++ [.sign .semicolon]

/-- Statements as marks, one after the other. -/
def marksOf : List (Stmt Expr) → List Mark
  | [] => []
  | s :: ss => s.marks ++ marksOf ss

end

end Stmt

/-! ## Declarations -/

/-- A field as marks. -/
def Field.marks (f : Field) : List Mark := f.type.marks ++ [.name f.name, .sign .semicolon]

/-- A formal parameter as marks. -/
def Formal.marks (f : Formal) : List Mark := f.type.marks ++ [.name f.name]

/-- The braces of a body with its statements. -/
def bodyMarks (body : List (Stmt Expr)) : List Mark :=
  .sign .lbrace :: Stmt.marksOf body ++ [.sign .rbrace]

namespace MethodForm

/-- What stands before the type of a method. -/
def opening : MethodForm Expr → List Mark
  | static _ | library => [.keyword .static]
  | virtual _ | unspecified _ => []

/-- What stands after the signature of a method: a library method has a mere
semicolon. -/
def closing : MethodForm Expr → List Mark
  | library => [.sign .semicolon]
  | virtual body | static body | unspecified body => bodyMarks body

end MethodForm

/-- A method as marks. -/
def Method.marks (m : Method Expr) : List Mark :=
  m.form.opening ++ m.type.marks ++ .name m.name :: argumentMarks (m.formals.map Formal.marks) ++
    m.form.closing

/-- The name of a class and what it extends. -/
def classHeading (name : String) (superclass : Option String) : List Mark :=
  [.keyword .class_, .className name] ++
    match superclass with
    | none => []
    | some superclass => [.keyword .extends_, .className superclass]

/-- A class as marks. -/
def ClassDecl.marks (c : ClassDecl Expr) : List Mark :=
  classHeading c.name c.superclass ++ .sign .lbrace :: c.fields.flatMap Field.marks ++
    c.methods.flatMap Method.marks ++ [.sign .rbrace]

/-- A program as marks. -/
def Program.marks (p : Program Expr) : List Mark := p.classes.flatMap ClassDecl.marks

end IcFront
