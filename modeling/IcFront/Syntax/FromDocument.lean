import IcFront.Syntax.Part
import IcFront.Syntax.Tree

/-!
# Syntax trees read from documents

A document is a program if its nodes stand where the syntax has them.
`Program.ofDocument` reads it class by class: first that every member of the
program is a class, then for each class its fields and its methods, and for each
method its signature, its parameters and its statements, and it reports the
first node that does not fit. A node that fits must also have its parts
(`Malformed.noPart`).

Only declarations and statements are judged by what they are. What stands in the
place of an expression is left to a function that comes with the document: one
that takes every document leaves it as it is.

The parameters of a method are judged only up to the first one whose class is
not declared, since there the signature is given up. After that any node that
declares a name with a type passes for a parameter.
-/

namespace IcFront

/-! ## Types -/

/-- The type that a document is. -/
def TypeRef.ofDocument (d : Document) : Except Malformed TypeRef := do
  let base ←
    match d.kind with
    | "PrimitiveType" => do
      let name ← d.getText "name"
      match Primitive.ofName? name with
      | some p => pure (BaseType.primitive p)
      | none => throw (.unknownPrimitive name)
    | "UserType" => do
      let name ← d.getText "name"
      pure (.user name)
    | found => throw (.notAType found)
  let dimension ← d.getInt "dimension"
  let line ← d.line
  return ⟨base, dimension, line⟩

/-! ## Statements -/

variable {ε : Type}

namespace Stmt

/-- What a part of a node holds in the place of an expression. -/
def exprPart (expr : Document → Except Malformed ε) (d : Document) (name : String) :
    Except Malformed ε := do
  let ⟨e, _⟩ ← d.get name
  expr e

/-- What a part of a node holds in the place of an expression, unless it is null. -/
def exprPart? (expr : Document → Except Malformed ε) (d : Document) (name : String) :
    Except Malformed (Option ε) := do
  match ← d.get? name with
  | none => return none
  | some ⟨e, _⟩ => return some (← expr e)

mutual

/-- The statement that a document is. -/
def ofDocument (expr : Document → Except Malformed ε) (d : Document) : Except Malformed (Stmt ε) :=
  match d.kind with
  | "LocalVariable" => do
    let ⟨type, _⟩ ← d.get "type"
    let type ← TypeRef.ofDocument type
    return .localVar type (← d.getText "name") (← exprPart? expr d "init_value") (← d.line)
  | "StatementsBlock" => do
    let ⟨body, _⟩ ← d.getList "statements"
    return .block (← ofDocuments expr body) (← d.line) d.scopeKey
  | "If" => do
    let ⟨body, _⟩ ← d.get "operation"
    let body ← ofDocument expr body
    match ← d.get? "else_operation" with
    | none => return .ifThen (← exprPart expr d "condition") body (← d.line)
    | some ⟨otherwise, _⟩ => do
      let otherwise ← ofDocument expr otherwise
      return .ifElse (← exprPart expr d "condition") body otherwise (← d.line)
  | "While" => do
    let ⟨body, _⟩ ← d.get "operation"
    let body ← ofDocument expr body
    return .while_ (← exprPart expr d "condition") body (← d.line)
  | "Assignment" =>
    return .assign (← exprPart expr d "variable") (← exprPart expr d "assignment") (← d.line)
  | "CallStatement" => return .call (← exprPart expr d "call") (← d.line)
  | "Return" => return .return_ (← exprPart? expr d "value") (← d.line)
  | "Break" => return .break_ (← d.line)
  | "Continue" => return .continue_ (← d.line)
  | found => .error (.notAStatement found d.line.toOption)
termination_by sizeOf d

/-- The statements that documents are. -/
def ofDocuments (expr : Document → Except Malformed ε) (ds : List Document) :
    Except Malformed (List (Stmt ε)) :=
  match ds with
  | [] => .ok []
  | d :: ds => do
    let s ← ofDocument expr d
    let ss ← ofDocuments expr ds
    return s :: ss
termination_by sizeOf ds

end

end Stmt

/-! ## Declarations -/

/-- Whether the base of a type is a class that is not among those declared. -/
def TypeRef.isUndefined (declared : List String) (t : TypeRef) : Bool :=
  match t.base with
  | .primitive _ => false
  | .user className => !declared.contains className

/-- The field of a class that a document is. -/
def Field.ofDocument (className : String) (d : Document) : Except Malformed Field :=
  match d.kind with
  | "Field" => do
    let type ← TypeRef.ofDocument (← d.get "type")
    return { type, name := ← d.getText "name", line := ← d.line }
  | found => .error (.notAField className found)

namespace Formal

/-- The formal parameter that a document is or stands in for. The name of one
whose type is undefined is never used. -/
def ofStandIn (declared : List String) (d : Document) : Except Malformed Formal := do
  let type ← TypeRef.ofDocument (← d.get "type")
  let line ← d.line
  let name ← if type.isUndefined declared then pure ((d.getText "name").toOption.getD "")
    else d.getText "name"
  match d.kind with
  | "Formal" => return ⟨type, name, line, none⟩
  | _ => return ⟨type, name, line, some d⟩

/-- The formal parameters that documents stand in for, once a signature has been
given up. -/
def ofStandIns (declared : List String) (ds : List Document) : Except Malformed (List Formal) :=
  ds.mapM (ofStandIn declared)

/-- Checks the formal parameters of a method, up to the first one whose class is
not declared. -/
def check (declared : List String) (method : String) : List Document → Except Malformed Unit
  | [] => .ok ()
  | d :: ds =>
    match d.kind with
    | "Formal" => do
      let type ← TypeRef.ofDocument (← d.get "type")
      if type.isUndefined declared then return () else check declared method ds
    | found => .error (.notAFormal method found)

end Formal

/-- The form of a method as a function of its body, by the kind of its node; none
if that is no method. -/
def MethodForm.ofKind? : String → Option (List (Stmt ε) → MethodForm ε)
  | "VirtualMethod" => some .virtual
  | "StaticMethod" => some .static
  | "LibraryMethod" => some fun _ => .library
  | "Method" => some .unspecified
  | _ => none

/-- The method of a class that a document is. -/
def Method.ofDocument (expr : Document → Except Malformed ε) (declared : List String)
    (className : String) (d : Document) : Except Malformed (Method ε) :=
  match MethodForm.ofKind? d.kind with
  | none => .error (.notAMethod className d.kind)
  | some form => do
    let type ← TypeRef.ofDocument (← d.get "type")
    let name ← d.getText "name"
    let ⟨formals, _⟩ ← d.getList "formals"
    Formal.check declared name formals
    let ⟨statements, _⟩ ← d.getList "statements"
    if d.kind = "LibraryMethod" && !statements.isEmpty then throw (.libraryBody name)
    let formals ← Formal.ofStandIns declared formals
    let body ← Stmt.ofDocuments expr statements
    return { form := form body, type, name, formals, line := ← d.line, scope := d.scopeKey }

/-- The class that a document is. -/
def ClassDecl.ofDocument (expr : Document → Except Malformed ε) (declared : List String)
    (d : Document) : Except Malformed (ClassDecl ε) := do
  let name ← d.getText "name"
  let superclass ←
    match d.part? "super_class_name" with
    | some .null => pure none
    | _ => do
      let superclass ← d.getText "super_class_name"
      pure (some superclass)
  let ⟨fields, _⟩ ← d.getList "fields"
  let ⟨methods, _⟩ ← d.getList "methods"
  let fields ← fields.mapM (Field.ofDocument name)
  let methods ← methods.mapM (Method.ofDocument expr declared name)
  return { name, superclass, fields, methods, line := ← d.line, scope := d.scopeKey }

/-- The name of the class that a document is. -/
def classNameOf (d : Document) : Except Malformed String :=
  match d.kind with
  | "ICClass" => d.getText "name"
  | found => .error (.notAClass found)

/-- The program that a document is, given what stands in the places of expressions. -/
def Program.ofDocument (expr : Document → Except Malformed ε) (d : Document) :
    Except Malformed (Program ε) :=
  match d.kind with
  | "Program" => do
    let ⟨classes, _⟩ ← d.getList "classes"
    let declared ← classes.mapM classNameOf
    let classes ← classes.mapM (ClassDecl.ofDocument expr declared)
    return { classes, line := ← d.line, scope := d.scopeKey }
  | found => .error (.notAProgram found)

end IcFront
