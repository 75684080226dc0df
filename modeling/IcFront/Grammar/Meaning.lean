import IcFront.Grammar.Reading
import IcFront.Text.Escape

/-!
# From parse trees to syntax trees

`meaning` checks the rules of the language that the grammar leaves open and
builds the syntax tree. It visits a parse tree bottom up and from left to right,
and the first violation that it meets is the one that is reported:

- nothing that is declared, and no element of a new array, has base type void;
- a method without a body is static;
- the target of an assignment is a variable, a field or an element;
- a statement that is an expression is a call;
- an integer has at most `maxDigits` digits.

`Program.parse` reads a source text and takes the meaning of its parse tree.
-/

namespace IcFront

/-- The kinds of declaration that have a type which is not void. -/
inductive Declared
  | field
  | parameter
  | localVariable
  deriving DecidableEq, Repr

/-- How a kind of declaration is called in messages. -/
def Declared.text : Declared → String
  | field => "field"
  | parameter => "parameter"
  | localVariable => "local variable"

/-- What can be wrong with a source text at one of its lines. -/
inductive SyntaxFault
  | misfit (m : Misfit)
  | voidDeclaration (what : Declared) (name : String)
  | bodyMissing (method : String)
  | invalidTarget
  | notAStatement
  | voidArray
  deriving DecidableEq, Repr

/-- The wording of a fault. -/
def SyntaxFault.message : SyntaxFault → String
  | misfit (.token text) => "unexpected token '" ++ text ++ "'"
  | misfit (.character c) => "unexpected character '" ++ c.toString ++ "'"
  | misfit .endOfText => "unexpected end of input"
  | voidDeclaration what name => what.text ++ " '" ++ name ++ "' cannot have type void"
  | bodyMissing method => "library method '" ++ method ++ "' must be static"
  | invalidTarget => "invalid assignment target"
  | notAStatement => "expression is not a statement"
  | voidArray => "cannot create an array of void"

/-- Why a source text has no syntax tree: a fault at a line, or an integer with
too many digits. -/
inductive ParseError
  | syntax_ (line : Int) (fault : SyntaxFault)
  | longInteger (digits : Nat)
  deriving DecidableEq, Repr

/-- The greatest number of digits that an integer may be written with. -/
def maxDigits : Nat := 4300

/-- The wording of an error. -/
def ParseError.message : ParseError → String
  | syntax_ line fault => "syntax error at line " ++ toString line ++ ": " ++ fault.message
  | longInteger digits =>
    "Error trying to process rule \"int_literal\":\n\n" ++
      "Exceeds the limit (" ++ toString maxDigits ++
      " digits) for integer string conversion: value has " ++ toString digits ++
      " digits; use sys.set_int_max_str_digits() to increase the limit"

/-- The number that decimal digits write. -/
def digitsValue (digits : List Char) : Nat :=
  digits.foldl (fun n d => 10 * n + (d.toNat - '0'.toNat)) 0

/-- The text that a string literal stands for: its body without the quotes,
escapes resolved. -/
def quotedValue (quoted : String) : String :=
  String.ofList (unescape (quoted.toList.drop 1).dropLast)

namespace ExprTree

mutual

/-- The expression that a parse tree means. Elements, lengths and expressions in
parentheses take the line of what they start with. -/
def meaning : ExprTree → Except ParseError Expr
  | var w => pure (.var w.text w.line)
  | field object w => do
    let object ← object.meaning
    return .field object w.text w.line
  | element array index => do
    let array ← array.meaning
    let index ← index.meaning
    return .element array index array.line
  | staticCall c w arguments => do
    let arguments ← meanings arguments
    return .staticCall c.text w.text arguments c.line
  | virtualCall receiver w arguments => do
    let receiver ← receiver.meaning
    let arguments ← meanings arguments
    return .virtualCall receiver w.text arguments w.line
  | localCall w arguments => do
    let arguments ← meanings arguments
    return .localCall w.text arguments w.line
  | this line => pure (.this line)
  | newObject line c => pure (.newObject c.text line)
  | newArray line type size => do
    let size ← size.meaning
    if type.isVoid then throw (.syntax_ line .voidArray)
    return .newArray type size line
  | length array => do
    let array ← array.meaning
    return .length array array.line
  | binary left op line right => do
    let left ← left.meaning
    let right ← right.meaning
    return .binary op left right line
  | unary op line operand => do
    let operand ← operand.meaning
    return .unary op operand line
  | integer w =>
    if maxDigits < w.text.length then throw (.longInteger w.text.length)
    else pure (.literal (.integer (digitsValue w.text.toList)) w.line)
  | string w => pure (.literal (.string (quotedValue w.text)) w.line)
  | bool value line => pure (.literal (.bool value) line)
  | null line => pure (.literal .null line)
  | paren inner => do
    let inner ← inner.meaning
    return .paren inner inner.line

/-- The expressions that a list of parse trees means. -/
def meanings : List ExprTree → Except ParseError (List Expr)
  | [] => pure []
  | e :: es => do
    let e ← e.meaning
    let es ← meanings es
    return e :: es

end

/-- The meaning of an expression that may be left out. -/
def meaning? : Option ExprTree → Except ParseError (Option Expr)
  | none => pure none
  | some e => do
    let e ← e.meaning
    return some e

end ExprTree

/-- Refuses a declaration of base type void, at the line of the type. -/
def refuseVoid (what : Declared) (type : TypeRef) (name : Word) : Except ParseError Unit :=
  if type.isVoid then throw (.syntax_ type.line (.voidDeclaration what name.text)) else pure ()

namespace StmtTree

mutual

/-- The statement that a parse tree means. -/
def meaning : StmtTree → Except ParseError (Stmt Expr)
  | localVar type w initial => do
    let initial ← ExprTree.meaning? initial
    refuseVoid .localVariable type w
    return .localVar type w.text initial w.line
  | assign target value => do
    let target ← target.meaning
    let value ← value.meaning
    if target.isLocation then return .assign target value target.line
    else throw (.syntax_ target.line .invalidTarget)
  | expression e => do
    let e ← e.meaning
    if e.isCall then return .call e e.line else throw (.syntax_ e.line .notAStatement)
  | return_ line value => do
    let value ← ExprTree.meaning? value
    return .return_ value line
  | ifThen line condition body => do
    let condition ← condition.meaning
    let body ← body.meaning
    return .ifThen condition body line
  | ifElse line condition body otherwise => do
    let condition ← condition.meaning
    let body ← body.meaning
    let otherwise ← otherwise.meaning
    return .ifElse condition body otherwise line
  | while_ line condition body => do
    let condition ← condition.meaning
    let body ← body.meaning
    return .while_ condition body line
  | break_ line => pure (.break_ line)
  | continue_ line => pure (.continue_ line)
  | block line body => do
    let body ← meanings body
    return .block body line none

/-- The statements that a list of parse trees means. -/
def meanings : List StmtTree → Except ParseError (List (Stmt Expr))
  | [] => pure []
  | s :: ss => do
    let s ← s.meaning
    let ss ← meanings ss
    return s :: ss

end

end StmtTree

/-- The formal parameter that a parse tree means. -/
def FormalTree.meaning (f : FormalTree) : Except ParseError Formal := do
  refuseVoid .parameter f.type f.name
  return { type := f.type, name := f.name.text, line := f.name.line }

/-- The field of a type that a name declares. -/
def fieldMeaning (type : TypeRef) (name : Word) : Except ParseError Field := do
  refuseVoid .field type name
  return { type := type, name := name.text, line := name.line }

/-- The method that a signature and a body mean. Without a body it is a library
method, which must be static. -/
def methodMeaning (s : Signature) (body : Option (List StmtTree)) :
    Except ParseError (Method Expr) := do
  let formals ← s.formals.mapM FormalTree.meaning
  let form ←
    match body with
    | none =>
      if s.static then pure .library
      else throw (.syntax_ s.name.line (.bodyMissing s.name.text))
    | some body => do
      let body ← StmtTree.meanings body
      pure (if s.static then .static body else .virtual body)
  return { form, type := s.type, name := s.name.text, formals, line := s.name.line }

/-- Adds what a member means to the fields and methods before it. -/
def MemberTree.meaning (sofar : List Field × List (Method Expr)) :
    MemberTree → Except ParseError (List Field × List (Method Expr))
  | fields type first further => do
    let fields ← (first :: further).mapM (fieldMeaning type)
    return (sofar.1 ++ fields, sofar.2)
  | method s body => do
    let m ← methodMeaning s body
    return (sofar.1, sofar.2 ++ [m])

/-- The class that a parse tree means. -/
def ClassTree.meaning (c : ClassTree) : Except ParseError (ClassDecl Expr) := do
  let (fields, methods) ← c.members.foldlM MemberTree.meaning ([], [])
  return { name := c.name.text, superclass := c.superclass.map (·.text), fields, methods,
           line := c.name.line }

/-- The program that a parse tree means. -/
def ProgramTree.meaning (p : ProgramTree) : Except ParseError (Program Expr) := do
  let classes ← p.mapM ClassTree.meaning
  return { classes := classes }

/-- The syntax tree of a source text. -/
def Program.parse (source : String) : Except ParseError (Program Expr) :=
  match (Reading.of source).result with
  | .ok tree => tree.meaning
  | .error (line, m) => .error (.syntax_ line (.misfit m))

end IcFront
