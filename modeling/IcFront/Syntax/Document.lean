/-!
# Documents: syntax trees as plain data

Outside the program a syntax tree travels as a *document*: null, booleans,
numbers, texts, lists, and nodes that have a kind and named parts. A document
need not be a syntax tree; `Document.kind` names what any document is, which is
how a misplaced one is reported.

`Document.complete` gives every node the parts that it may leave out. After
that a node has exactly the parts of its kind, in their order (`partsOf`).
-/

namespace IcFront

/-- The kinds of literal: a vocabulary of its own, not texts. -/
inductive LiteralKind
  | integer
  | string
  | true_
  | false_
  | null
  deriving DecidableEq, Repr

namespace LiteralKind

/-- The word for a kind of literal. -/
def text : LiteralKind → String
  | integer => "integer"
  | string => "string"
  | true_ => "true"
  | false_ => "false"
  | null => "null"

/-- The name of the constant that stands for a kind of literal. -/
def constant : LiteralKind → String
  | integer => "INTEGER"
  | string => "STRING"
  | true_ => "TRUE"
  | false_ => "FALSE"
  | null => "NULL"

/-- Every kind of literal. -/
def all : List LiteralKind := [integer, string, true_, false_, null]

/-- The kind of literal with a given word. -/
def ofText? (word : String) : Option LiteralKind := all.find? fun k => k.text == word

end LiteralKind

/-- Plain data with named nodes. -/
inductive Document
  | null
  | bool (value : Bool)
  | int (value : Int)
  /-- A number with decimal places: all its digits, and how many are places. -/
  | decimal (digits : Int) (places : Nat)
  | text (value : String)
  | literalKind (kind : LiteralKind)
  | list (items : List Document)
  | node (kind : String) (parts : List (String × Document))
  deriving Repr, Inhabited

namespace Document

/-- What a document is, in one word: for a node its kind. -/
def kind : Document → String
  | null => "NoneType"
  | bool _ => "bool"
  | int _ => "int"
  | decimal .. => "float"
  | text _ => "str"
  | literalKind _ => "LiteralKind"
  | list _ => "list"
  | node k _ => k

/-- The part of a node with a given name. -/
def part? (d : Document) (name : String) : Option Document :=
  match d with
  | node _ parts => parts.lookup name
  | _ => none

/-- A part of a kind of node: its name, and what stands for it when it is left
out, if it may be. -/
structure Part where
  name : String
  default : Option Document := none

/-- A part that every node of its kind must have. -/
def Part.required (name : String) : Part := ⟨name, none⟩

/-- A part that is null when left out. -/
def Part.optional (name : String) : Part := ⟨name, some .null⟩

/-- A part that is an empty list when left out. -/
def Part.many (name : String) : Part := ⟨name, some (.list [])⟩

/-- A part that is zero when left out. -/
def Part.count (name : String) : Part := ⟨name, some (.int 0)⟩

/-- The parts of each kind of node, in the order they are written. -/
def partsOf : String → List Part
  | "PrimitiveType" | "UserType" => [.required "name", .count "dimension", .count "line"]
  | "Program" => [.many "classes", .count "line", .optional "scope"]
  | "ICClass" =>
    [.required "name", .required "super_class_name", .many "fields", .many "methods",
      .count "line", .optional "scope"]
  | "Field" | "Formal" => [.required "type", .required "name", .count "line"]
  | "Method" | "VirtualMethod" | "StaticMethod" | "LibraryMethod" =>
    [.required "type", .required "name", .many "formals", .many "statements", .count "line",
      .optional "scope"]
  | "Assignment" => [.required "variable", .required "assignment", .count "line"]
  | "CallStatement" => [.required "call", .count "line"]
  | "Return" => [.optional "value", .count "line"]
  | "If" =>
    [.required "condition", .required "operation", .optional "else_operation", .count "line"]
  | "While" => [.required "condition", .required "operation", .count "line"]
  | "Break" | "Continue" | "This" => [.count "line"]
  | "StatementsBlock" => [.many "statements", .count "line", .optional "scope"]
  | "LocalVariable" =>
    [.required "type", .required "name", .optional "init_value", .count "line"]
  | "VariableLocation" => [.required "name", .optional "location", .count "line"]
  | "ArrayLocation" => [.required "array", .required "index", .count "line"]
  | "StaticCall" =>
    [.required "class_name", .required "name", .many "arguments", .count "line"]
  | "VirtualCall" =>
    [.required "name", .many "arguments", .optional "location", .count "line"]
  | "NewClass" => [.required "name", .count "line"]
  | "NewArray" => [.required "type", .required "size", .count "line"]
  | "Length" => [.required "array", .count "line"]
  | "MathBinaryOp" | "LogicalBinaryOp" =>
    [.required "operator", .required "operand1", .required "operand2", .count "line"]
  | "MathUnaryOp" | "LogicalUnaryOp" => [.required "operator", .required "operand", .count "line"]
  | "Literal" => [.required "kind", .optional "value", .count "line"]
  | "ExpressionBlock" => [.required "expression", .count "line"]
  | _ => []

/-- The parts of a node of a kind, put in order: those given, the defaults for
those left out, and none that the kind does not have. -/
def arrange (kind : String) (given : List (String × Document)) : List (String × Document) :=
  (partsOf kind).filterMap fun p =>
    match given.lookup p.name with
    | some d => some (p.name, d)
    | none => p.default.map fun d => (p.name, d)

mutual

/-- The document with every node's parts arranged. -/
def complete : Document → Document
  | node k parts => node k (arrange k (completeParts parts))
  | list items => list (completeAll items)
  | d => d

/-- `complete` for every document of a list. -/
def completeAll : List Document → List Document
  | [] => []
  | d :: ds => complete d :: completeAll ds

/-- `complete` for every part of a node. -/
def completeParts : List (String × Document) → List (String × Document)
  | [] => []
  | (name, d) :: rest => (name, complete d) :: completeParts rest

end

end Document

end IcFront
