import IcFront.Syntax.Token
import IcFront.Syntax.Tree

/-!
# Parse trees

What the grammar makes of a sequence of tokens, before any rule beyond the
grammar is checked. A parse tree differs from a syntax tree where the grammar
is wider than the language: any expression may stand on the left of `=` or as a
statement, any type may be void, a method without a body need not be static,
and an integer is still its digits. `IcFront.Grammar.Meaning` turns a parse
tree into a syntax tree or says what is wrong with it.
-/

namespace IcFront

/-- A word of a source text with its line. -/
structure Word where
  text : String
  line : Nat
  deriving DecidableEq, Repr

/-- The word that a token is written as. -/
def Token.word (t : Token) : Word := ⟨t.text, t.line⟩

/-- Expressions, as the grammar reads them. -/
inductive ExprTree
  | var (name : Word)
  | field (object : ExprTree) (name : Word)
  | element (array : ExprTree) (index : ExprTree)
  | staticCall (className : Word) (name : Word) (arguments : List ExprTree)
  | virtualCall (receiver : ExprTree) (name : Word) (arguments : List ExprTree)
  | localCall (name : Word) (arguments : List ExprTree)
  | this (line : Nat)
  | newObject (line : Nat) (className : Word)
  | newArray (line : Nat) (element : TypeRef) (size : ExprTree)
  | length (array : ExprTree)
  | binary (left : ExprTree) (op : BinaryOp) (line : Nat) (right : ExprTree)
  | unary (op : UnaryOp) (line : Nat) (operand : ExprTree)
  | integer (digits : Word)
  /-- A string literal, quotes and escapes included. -/
  | string (quoted : Word)
  | bool (value : Bool) (line : Nat)
  | null (line : Nat)
  | paren (inner : ExprTree)
  deriving Repr, Inhabited

/-- Statements, as the grammar reads them. -/
inductive StmtTree
  | localVar (type : TypeRef) (name : Word) (initial : Option ExprTree)
  | assign (target : ExprTree) (value : ExprTree)
  | expression (e : ExprTree)
  | return_ (line : Nat) (value : Option ExprTree)
  | ifThen (line : Nat) (condition : ExprTree) (body : StmtTree)
  | ifElse (line : Nat) (condition : ExprTree) (body : StmtTree) (otherwise : StmtTree)
  | while_ (line : Nat) (condition : ExprTree) (body : StmtTree)
  | break_ (line : Nat)
  | continue_ (line : Nat)
  | block (line : Nat) (body : List StmtTree)
  deriving Repr, Inhabited

/-- A formal parameter. -/
structure FormalTree where
  type : TypeRef
  name : Word
  deriving Repr

/-- What stands before the body of a method. -/
structure Signature where
  static : Bool
  type : TypeRef
  name : Word
  formals : List FormalTree
  deriving Repr

/-- Members of a class. -/
inductive MemberTree
  /-- Fields of one type, declared together: a first and further ones. -/
  | fields (type : TypeRef) (first : Word) (further : List Word)
  /-- A method, whose body may be a mere semicolon. -/
  | method (signature : Signature) (body : Option (List StmtTree))
  deriving Repr

/-- A class. -/
structure ClassTree where
  name : Word
  superclass : Option Word
  members : List MemberTree
  deriving Repr

/-- A whole source text. -/
abbrev ProgramTree := List ClassTree

/-- The type that a token starts: a primitive type by its word, or a class by
its name. -/
def Token.type? (t : Token) : Option TypeRef :=
  match t.terminal with
  | .keyword .int => some ⟨.primitive .int, 0, t.line⟩
  | .keyword .boolean => some ⟨.primitive .boolean, 0, t.line⟩
  | .keyword .string => some ⟨.primitive .string, 0, t.line⟩
  | .keyword .void => some ⟨.primitive .void, 0, t.line⟩
  | .className => some ⟨.user t.text, 0, t.line⟩
  | _ => none

/-- The type of arrays of a type. -/
def TypeRef.array (t : TypeRef) : TypeRef := { t with dimension := t.dimension + 1 }

/-- The operator that a sign stands for between two operands. -/
def Sign.binaryOp? : Sign → Option BinaryOp
  | or => some .or
  | and => some .and
  | eq => some .eq
  | ne => some .ne
  | lt => some .lt
  | le => some .le
  | gt => some .gt
  | ge => some .ge
  | plus => some .add
  | minus => some .sub
  | star => some .mul
  | slash => some .div
  | percent => some .mod
  | _ => none

end IcFront
