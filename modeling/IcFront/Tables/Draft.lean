import IcFront.Scopes.Lookup
import IcFront.Tables.Diagnostic
import IcFront.Types.Table

/-!
# Tables in the making

A `Draft` is what has been made of a program's tables so far: its scopes, its
types, and what has happened. This file has the steps that all declarations
share: making a scope, declaring a symbol, and finding the type of a declaration
(`typeOf`) or of a whole signature (`signature`).

A step never fails. A name that is taken is reported and not declared again; a
type whose class is not declared is reported once, where it is written, and is
none.
-/

namespace IcFront

/-- Tables in the making. -/
structure Draft where
  scopes : Arena := {}
  types : TypeTable
  events : List Event := []

namespace Draft

/-- Records an event. -/
def note (d : Draft) (e : Event) : Draft := { d with events := d.events ++ [e] }

/-- Records an error at a line. -/
def report (d : Draft) (e : SemanticError) (line : Int) : Draft := d.note (.reported ⟨e, line⟩)

/-- Makes a scope. -/
def newScope (d : Draft) (kind : ScopeKind) (name : String) : Draft × Nat :=
  ({ d with scopes := (d.scopes.newScope kind name).1 }, (d.scopes.newScope kind name).2)

/-- Makes a scope the last child of another and that one its parent. -/
def attach (d : Draft) (parent child : Nat) : Draft :=
  { d with scopes := (d.scopes.addChild parent child).setParent child parent }

/-- Declares a symbol in a scope, or reports that its name is taken. -/
def declare (d : Draft) (key : Nat) (s : Symbol) : Draft :=
  match d.scopes.insert? key s with
  | some scopes => { d with scopes }
  | none => d.report (.duplicateDeclaration s.name (d.scopes.describe key)) s.line

/-- The id of a type with a number of brackets after it. -/
def withBrackets (t : TypeTable) (id : TypeId) : Nat → TypeTable × TypeId
  | 0 => (t, id)
  | n + 1 => withBrackets (t.intern (.array id)).1 (t.intern (.array id)).2 n

/-- The id of a type as written, none if its class is not declared. -/
def find (d : Draft) (type : TypeRef) : Draft × Option TypeId :=
  let base := match type.base with
    | .primitive p => some (d.types.internPrimitive p.kind)
    | .user className => (d.types.lookupClass className).map fun id => (d.types, id)
  match base with
  | none => (d, none)
  | some (types, id) =>
    let (types, id) := withBrackets types id type.dimension.toNat
    ({ d with types }, some id)

/-- The id of the type of a declaration at a line. If its class is not declared,
that is reported. -/
def typeOf (d : Draft) (type : TypeRef) (line : Int) : Draft × Option TypeId :=
  match d.find type with
  | (d, some id) => (d, some id)
  | (d, none) => (d.report (.undefinedClass type.base.name) line, none)

/-- The ids of the types of parameters, or none from the first one whose class is
not declared. Nothing is reported. -/
def parameterTypes (d : Draft) : List Formal → Draft × Option (List TypeId)
  | [] => (d, some [])
  | f :: fs =>
    match d.find f.type with
    | (d, none) => (d, none)
    | (d, some id) =>
      let (d, ids) := parameterTypes d fs
      (d, ids.map (id :: ·))

/-- The id of the type of a method, if every class in its signature is declared.
An undeclared class of the result is reported here, those of parameters where
the parameters are declared. -/
def signature {ε : Type} (d : Draft) (m : Method ε) : Draft × Option TypeId :=
  let (d, result) := d.typeOf m.type m.line
  let (d, parameters) := d.parameterTypes m.formals
  match result, parameters with
  | some result, some parameters =>
    let (types, id) := d.types.internMethod result parameters
    ({ d with types }, some id)
  | _, _ => (d, none)

end Draft

end IcFront
