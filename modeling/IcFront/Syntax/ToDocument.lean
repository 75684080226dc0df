import IcFront.Syntax.Tree

/-!
# Syntax trees written as documents

The document of each kind of tree. Every part is written, also one that could
be left out, and in the order of `Document.partsOf`. What a statement holds in
the places of expressions is written by a function that comes with it:
`Expr.toDocument` for a tree read from source text.
-/

namespace IcFront

namespace Document

/-- A text that may be missing. -/
def ofText? : Option String → Document
  | none => .null
  | some s => .text s

/-- A scope key that may be missing. -/
def ofKey? : Option Nat → Document
  | none => .null
  | some k => .int k

end Document

open Document (ofText? ofKey?)

/-- A type as a document. -/
def TypeRef.toDocument (t : TypeRef) : Document :=
  let rest := [("dimension", .int t.dimension), ("line", .int t.line)]
  match t.base with
  | .primitive p => .node "PrimitiveType" (("name", .text p.name) :: rest)
  | .user name => .node "UserType" (("name", .text name) :: rest)

namespace Literal

/-- The kind of a literal. -/
def kind : Literal → LiteralKind
  | integer _ => .integer
  | string _ => .string
  | bool true => .true_
  | bool false => .false_
  | null => .null

/-- The value of a literal as a document. -/
def value : Literal → Document
  | integer n => .int n
  | string s => .text s
  | bool b => .bool b
  | null => .null

end Literal

namespace Expr

mutual

/-- An expression as a document. -/
def toDocument : Expr → Document
  | var name line =>
    .node "VariableLocation" [("name", .text name), ("location", .null), ("line", .int line)]
  | field object name line =>
    .node "VariableLocation"
      [("name", .text name), ("location", object.toDocument), ("line", .int line)]
  | element array index line =>
    .node "ArrayLocation"
      [("array", array.toDocument), ("index", index.toDocument), ("line", .int line)]
  | staticCall className name arguments line =>
    .node "StaticCall"
      [("class_name", .text className), ("name", .text name),
        ("arguments", .list (toDocuments arguments)), ("line", .int line)]
  | virtualCall receiver name arguments line =>
    .node "VirtualCall"
      [("name", .text name), ("arguments", .list (toDocuments arguments)),
        ("location", receiver.toDocument), ("line", .int line)]
  | localCall name arguments line =>
    .node "VirtualCall"
      [("name", .text name), ("arguments", .list (toDocuments arguments)),
        ("location", .null), ("line", .int line)]
  | this line => .node "This" [("line", .int line)]
  | newObject className line => .node "NewClass" [("name", .text className), ("line", .int line)]
  | newArray type size line =>
    .node "NewArray"
      [("type", type.toDocument), ("size", size.toDocument), ("line", .int line)]
  | length array line => .node "Length" [("array", array.toDocument), ("line", .int line)]
  | binary op left right line =>
    .node (if op.isMath then "MathBinaryOp" else "LogicalBinaryOp")
      [("operator", .text op.text), ("operand1", left.toDocument),
        ("operand2", right.toDocument), ("line", .int line)]
  | unary op operand line =>
    .node (match op with | .minus => "MathUnaryOp" | .not => "LogicalUnaryOp")
      [("operator", .text op.text), ("operand", operand.toDocument), ("line", .int line)]
  | literal value line =>
    .node "Literal"
      [("kind", .literalKind value.kind), ("value", value.value), ("line", .int line)]
  | paren inner line =>
    .node "ExpressionBlock" [("expression", inner.toDocument), ("line", .int line)]

/-- A list of expressions as documents. -/
def toDocuments : List Expr → List Document
  | [] => []
  | e :: es => e.toDocument :: toDocuments es

end

end Expr

variable {ε : Type}

namespace Stmt

/-- An expression that may be missing as a document. -/
def ofExpr? (expr : ε → Document) : Option ε → Document
  | none => .null
  | some e => expr e

mutual

/-- A statement as a document, given the documents of expressions. -/
def toDocument (expr : ε → Document) : Stmt ε → Document
  | assign target value line =>
    .node "Assignment"
      [("variable", expr target), ("assignment", expr value), ("line", .int line)]
  | call e line => .node "CallStatement" [("call", expr e), ("line", .int line)]
  | return_ value line => .node "Return" [("value", ofExpr? expr value), ("line", .int line)]
  | ifThen condition body line =>
    .node "If"
      [("condition", expr condition), ("operation", body.toDocument expr),
        ("else_operation", .null), ("line", .int line)]
  | ifElse condition body otherwise line =>
    .node "If"
      [("condition", expr condition), ("operation", body.toDocument expr),
        ("else_operation", otherwise.toDocument expr), ("line", .int line)]
  | while_ condition body line =>
    .node "While"
      [("condition", expr condition), ("operation", body.toDocument expr), ("line", .int line)]
  | break_ line => .node "Break" [("line", .int line)]
  | continue_ line => .node "Continue" [("line", .int line)]
  | block body line scope =>
    .node "StatementsBlock"
      [("statements", .list (toDocuments expr body)), ("line", .int line), ("scope", ofKey? scope)]
  | localVar type name initial line =>
    .node "LocalVariable"
      [("type", type.toDocument), ("name", .text name), ("init_value", ofExpr? expr initial),
        ("line", .int line)]

/-- A list of statements as documents. -/
def toDocuments (expr : ε → Document) : List (Stmt ε) → List Document
  | [] => []
  | s :: ss => s.toDocument expr :: toDocuments expr ss

end

end Stmt

/-- A field as a document. -/
def Field.toDocument (f : Field) : Document :=
  .node "Field" [("type", f.type.toDocument), ("name", .text f.name), ("line", .int f.line)]

/-- A formal parameter as a document: the node that stands in for it, if one
does. -/
def Formal.toDocument (f : Formal) : Document :=
  match f.standIn with
  | some d => d
  | none =>
    .node "Formal" [("type", f.type.toDocument), ("name", .text f.name), ("line", .int f.line)]

/-- The kind of node that a method is written as. -/
def MethodForm.kind : MethodForm ε → String
  | virtual _ => "VirtualMethod"
  | static _ => "StaticMethod"
  | library => "LibraryMethod"
  | unspecified _ => "Method"

/-- A method as a document. -/
def Method.toDocument (expr : ε → Document) (m : Method ε) : Document :=
  .node m.form.kind
    [("type", m.type.toDocument), ("name", .text m.name),
      ("formals", .list (m.formals.map Formal.toDocument)),
      ("statements", .list (Stmt.toDocuments expr m.form.body)), ("line", .int m.line),
      ("scope", ofKey? m.scope)]

/-- A class as a document. -/
def ClassDecl.toDocument (expr : ε → Document) (c : ClassDecl ε) : Document :=
  .node "ICClass"
    [("name", .text c.name), ("super_class_name", ofText? c.superclass),
      ("fields", .list (c.fields.map Field.toDocument)),
      ("methods", .list (c.methods.map (Method.toDocument expr))), ("line", .int c.line),
      ("scope", ofKey? c.scope)]

/-- A program as a document, given the documents of its expressions. -/
def Program.toDocument (expr : ε → Document) (p : Program ε) : Document :=
  .node "Program"
    [("classes", .list (p.classes.map (ClassDecl.toDocument expr))), ("line", .int p.line),
      ("scope", ofKey? p.scope)]

end IcFront
