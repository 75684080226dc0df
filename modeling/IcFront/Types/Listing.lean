import IcFront.Types.Spelling

/-!
# Listings of type tables

The text of a type table: a heading, and one line per type, first the primitive
types, then the classes, the arrays and the methods, each group in the order of
ids. The line of a class names the id of its superclass.
-/

namespace IcFront

namespace TypeTable

/-- What the line of a type says after its id. -/
def about (t : TypeTable) (id : TypeId) : TypeEntry → Except TypeFault String
  | .primitive kind => .ok ("Primitive type: " ++ kind.name)
  | .class_ name =>
    .ok ("Class: " ++ name ++
      match t.superclassOf id with
      | some s => ", Superclass ID: " ++ toString s
      | none => "")
  | .array _ => do
    let text ← t.describe id
    return "Array type: " ++ text
  | .method .. => do
    let text ← t.describe id
    return "Method type: " ++ text

/-- The line of a type. -/
def line (t : TypeTable) (id : TypeId) : Except TypeFault String :=
  match t.entry? id with
  | none => .error (.unknownId id)
  | some e => do
    let text ← t.about id e
    return "    " ++ toString id ++ ": " ++ text

/-- The listing of a type table. -/
def listing (t : TypeTable) : Except TypeFault String := do
  let lines ← (TypeKind.all.flatMap t.idsOf).mapM t.line
  return "\n".intercalate (("Type Table: " ++ t.name) :: lines) ++ "\n"

end TypeTable

end IcFront
