import IcFront.Syntax.Document

/-!
# Syntax trees of IC programs

The trees that the rest of the front end works on. A declaration, statement or
expression carries the line of its *anchor*: the name it declares or uses, the
keyword, brace, operator or literal it starts from. Nodes that open a scope
(`Program`, `ClassDecl`, `Method`, and the `block` statement) also carry the
key of that scope, once symbol tables have been built.

Statements, and all that holds them, are generic in their expressions `ε`: what a
program declares does not depend on them, so that symbol tables can be built
without knowing what an expression is. A tree read from source text has
expressions of type `Expr`.

Lines and dimensions are integers, because trees may also come from documents;
trees read from source text only have positive lines (but for the program's
own) and dimensions of zero or more.
-/

namespace IcFront

/-- The primitive types that a declaration can spell. -/
inductive Primitive
  | int
  | boolean
  | string
  | void
  deriving DecidableEq, Repr

namespace Primitive

/-- The spelling of a primitive type. -/
def name : Primitive → String
  | int => "int"
  | boolean => "boolean"
  | string => "string"
  | void => "void"

/-- The primitive type that a word spells, if any. -/
def ofName? : String → Option Primitive
  | "int" => some int
  | "boolean" => some boolean
  | "string" => some string
  | "void" => some void
  | _ => none

end Primitive

/-- What a type is before any array brackets. -/
inductive BaseType
  | primitive (p : Primitive)
  | user (className : String)
  deriving DecidableEq, Repr

/-- The name of the base of a type. -/
def BaseType.name : BaseType → String
  | primitive p => p.name
  | user className => className

/-- A type as written: its base and how many pairs of brackets follow it. -/
structure TypeRef where
  base : BaseType
  dimension : Int := 0
  line : Int := 0
  deriving DecidableEq, Repr

/-- Whether the base of a type is void. -/
def TypeRef.isVoid (t : TypeRef) : Bool := t.base = .primitive .void

/-- The operators with two operands. -/
inductive BinaryOp
  | or
  | and
  | eq
  | ne
  | lt
  | le
  | gt
  | ge
  | add
  | sub
  | mul
  | div
  | mod
  deriving DecidableEq, Repr

namespace BinaryOp

/-- The spelling of an operator. -/
def text : BinaryOp → String
  | or => "||"
  | and => "&&"
  | eq => "=="
  | ne => "!="
  | lt => "<"
  | le => "<="
  | gt => ">"
  | ge => ">="
  | add => "+"
  | sub => "-"
  | mul => "*"
  | div => "/"
  | mod => "%"

/-- Every operator with two operands. -/
def all : List BinaryOp := [or, and, eq, ne, lt, le, gt, ge, add, sub, mul, div, mod]

/-- The operator with a given spelling. -/
def ofText? (word : String) : Option BinaryOp :=
  all.find? fun op => op.text == word

/-- How tightly an operator binds: a greater level binds tighter. -/
def level : BinaryOp → Nat
  | or => 0
  | and => 1
  | eq | ne => 2
  | lt | le | gt | ge => 3
  | add | sub => 4
  | mul | div | mod => 5

/-- Whether an operator computes with numbers (or joins strings), and not with
truth values and comparisons. -/
def isMath : BinaryOp → Bool
  | add | sub | mul | div | mod => true
  | _ => false

end BinaryOp

/-- The operators with one operand. -/
inductive UnaryOp
  | minus
  | not
  deriving DecidableEq, Repr

namespace UnaryOp

/-- The spelling of an operator. -/
def text : UnaryOp → String
  | minus => "-"
  | not => "!"

end UnaryOp

/-- Literal values. -/
inductive Literal
  | integer (value : Int)
  | string (value : String)
  | bool (value : Bool)
  | null
  deriving DecidableEq, Repr

/-- Expressions. -/
inductive Expr
  | var (name : String) (line : Int)
  /-- A field of an object. -/
  | field (object : Expr) (name : String) (line : Int)
  /-- An element of an array. -/
  | element (array : Expr) (index : Expr) (line : Int)
  | staticCall (className : String) (name : String) (arguments : List Expr) (line : Int)
  /-- A call with a receiver. -/
  | virtualCall (receiver : Expr) (name : String) (arguments : List Expr) (line : Int)
  /-- A call by name alone, whose receiver is the current object. -/
  | localCall (name : String) (arguments : List Expr) (line : Int)
  | this (line : Int)
  | newObject (className : String) (line : Int)
  | newArray (element : TypeRef) (size : Expr) (line : Int)
  | length (array : Expr) (line : Int)
  | binary (op : BinaryOp) (left : Expr) (right : Expr) (line : Int)
  | unary (op : UnaryOp) (operand : Expr) (line : Int)
  | literal (value : Literal) (line : Int)
  /-- An expression in parentheses. -/
  | paren (inner : Expr) (line : Int)
  deriving Repr, Inhabited

namespace Expr

/-- The line of an expression's anchor. -/
def line : Expr → Int
  | var _ l | field _ _ l | element _ _ l | staticCall _ _ _ l | virtualCall _ _ _ l
  | localCall _ _ l | this l | newObject _ l | newArray _ _ l | length _ l | binary _ _ _ l
  | unary _ _ l | literal _ l | paren _ l => l

/-- Whether an expression denotes a place that can be assigned to. -/
def isLocation : Expr → Bool
  | var .. | field .. | element .. => true
  | _ => false

/-- Whether an expression is a call. -/
def isCall : Expr → Bool
  | staticCall .. | virtualCall .. | localCall .. => true
  | _ => false

end Expr

/-- Statements with expressions of a given type. -/
inductive Stmt (ε : Type)
  | assign (target : ε) (value : ε) (line : Int)
  | call (call : ε) (line : Int)
  | return_ (value : Option ε) (line : Int)
  | ifThen (condition : ε) (body : Stmt ε) (line : Int)
  | ifElse (condition : ε) (body : Stmt ε) (otherwise : Stmt ε) (line : Int)
  | while_ (condition : ε) (body : Stmt ε) (line : Int)
  | break_ (line : Int)
  | continue_ (line : Int)
  | block (body : List (Stmt ε)) (line : Int) (scope : Option Nat)
  /-- The declaration of a local variable. -/
  | localVar (type : TypeRef) (name : String) (initial : Option ε) (line : Int)
  deriving Repr, Inhabited

/-- A field of a class. -/
structure Field where
  type : TypeRef
  name : String
  line : Int := 0
  deriving DecidableEq, Repr

/-- A formal parameter. In a tree that comes from a document another kind of
node may stand in for one, if it too declares a name with a type; `standIn`
then keeps it. -/
structure Formal where
  type : TypeRef
  name : String
  line : Int := 0
  standIn : Option Document := none
  deriving Repr

/-- The kinds of method, each with the body it has: a library method has none.
An `unspecified` method is neither declared static nor virtual; only documents
hold one. -/
inductive MethodForm (ε : Type)
  | virtual (body : List (Stmt ε))
  | static (body : List (Stmt ε))
  | library
  | unspecified (body : List (Stmt ε))
  deriving Repr

namespace MethodForm

variable {ε : Type}

/-- The statements of a method's body. -/
def body : MethodForm ε → List (Stmt ε)
  | virtual b | static b | unspecified b => b
  | library => []

/-- The form with another body. A library method has none. -/
def withBody (body : List (Stmt ε)) : MethodForm ε → MethodForm ε
  | virtual _ => virtual body
  | static _ => static body
  | library => library
  | unspecified _ => unspecified body

end MethodForm

/-- A method of a class. -/
structure Method (ε : Type) where
  form : MethodForm ε
  type : TypeRef
  name : String
  formals : List Formal
  line : Int := 0
  scope : Option Nat := none
  deriving Repr

/-- A class with its fields and methods, each in their order. -/
structure ClassDecl (ε : Type) where
  name : String
  superclass : Option String
  fields : List Field
  methods : List (Method ε)
  line : Int := 0
  scope : Option Nat := none
  deriving Repr

/-- A program: its classes in order. -/
structure Program (ε : Type) where
  classes : List (ClassDecl ε)
  line : Int := 0
  scope : Option Nat := none
  deriving Repr

end IcFront
