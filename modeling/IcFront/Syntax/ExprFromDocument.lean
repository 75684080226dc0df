import IcFront.Syntax.FromDocument

/-!
# Expressions read from documents

`Expr.ofDocument` reads back what `Expr.toDocument` writes, and refuses any
other document. Given to `Program.ofDocument`, it reads a whole program.
-/

namespace IcFront

/-- The literal that a document is. -/
def Literal.ofDocument (d : Document) : Except Malformed Literal :=
  match d.part? "kind", d.part? "value" with
  | some (.literalKind .integer), some (.int n) => .ok (.integer n)
  | some (.literalKind .string), some (.text s) => .ok (.string s)
  | some (.literalKind .true_), _ => .ok (.bool true)
  | some (.literalKind .false_), _ => .ok (.bool false)
  | some (.literalKind .null), _ => .ok .null
  | some (.literalKind _), _ => .error (.noPart d.kind "value")
  | _, _ => .error (.noPart d.kind "kind")

/-- The operator of a node with two operands. -/
def BinaryOp.ofDocument (d : Document) : Except Malformed BinaryOp := do
  let text ← d.getText "operator"
  match BinaryOp.ofText? text with
  | some op => pure op
  | none => throw (.noPart d.kind "operator")

namespace Expr

mutual

/-- The expression that a document is. -/
def ofDocument (d : Document) : Except Malformed Expr :=
  match d.kind with
  | "VariableLocation" => do
    let name ← d.getText "name"
    let line ← d.line
    match ← d.get? "location" with
    | none => return .var name line
    | some ⟨object, _⟩ => do
      let object ← ofDocument object
      return .field object name line
  | "ArrayLocation" => do
    let ⟨array, _⟩ ← d.get "array"
    let ⟨index, _⟩ ← d.get "index"
    return .element (← ofDocument array) (← ofDocument index) (← d.line)
  | "StaticCall" => do
    let ⟨arguments, _⟩ ← d.getList "arguments"
    return .staticCall (← d.getText "class_name") (← d.getText "name")
      (← ofDocuments arguments) (← d.line)
  | "VirtualCall" => do
    let name ← d.getText "name"
    let ⟨arguments, _⟩ ← d.getList "arguments"
    let line ← d.line
    match ← d.get? "location" with
    | none => return .localCall name (← ofDocuments arguments) line
    | some ⟨receiver, _⟩ => do
      let receiver ← ofDocument receiver
      return .virtualCall receiver name (← ofDocuments arguments) line
  | "This" => return .this (← d.line)
  | "NewClass" => return .newObject (← d.getText "name") (← d.line)
  | "NewArray" => do
    let ⟨type, _⟩ ← d.get "type"
    let ⟨size, _⟩ ← d.get "size"
    return .newArray (← TypeRef.ofDocument type) (← ofDocument size) (← d.line)
  | "Length" => do
    let ⟨array, _⟩ ← d.get "array"
    return .length (← ofDocument array) (← d.line)
  | "MathBinaryOp" | "LogicalBinaryOp" => do
    let op ← BinaryOp.ofDocument d
    let ⟨left, _⟩ ← d.get "operand1"
    let ⟨right, _⟩ ← d.get "operand2"
    return .binary op (← ofDocument left) (← ofDocument right) (← d.line)
  | "MathUnaryOp" => do
    let ⟨operand, _⟩ ← d.get "operand"
    return .unary .minus (← ofDocument operand) (← d.line)
  | "LogicalUnaryOp" => do
    let ⟨operand, _⟩ ← d.get "operand"
    return .unary .not (← ofDocument operand) (← d.line)
  | "Literal" => return .literal (← Literal.ofDocument d) (← d.line)
  | "ExpressionBlock" => do
    let ⟨inner, _⟩ ← d.get "expression"
    return .paren (← ofDocument inner) (← d.line)
  | found => .error (.notAnExpression found)
termination_by sizeOf d

/-- The expressions that documents are. -/
def ofDocuments (ds : List Document) : Except Malformed (List Expr) :=
  match ds with
  | [] => .ok []
  | d :: ds => do
    let e ← ofDocument d
    let es ← ofDocuments ds
    return e :: es
termination_by sizeOf ds

end

end Expr

end IcFront
