import IcFront.Scopes.Lookup
import IcFront.Types.Spelling

/-!
# Listings of scopes

The text of a tree of scopes: one section per scope, each scope before its
children, with an empty line between sections. A section has a heading, a line
per symbol, and a line that names the children, if there are any.

A listing fails only where the type of a symbol cannot be spelled.
-/

namespace IcFront

/-- The line of a symbol: its kind, and its name with its type. A class has no
type but itself. -/
def Symbol.listing (types : TypeTable) (s : Symbol) : Except TypeFault String :=
  match s.kind with
  | .class_ => .ok (s.kind.text ++ ": " ++ s.name)
  | .virtualMethod | .staticMethod => do
    let type ← types.describe s.type
    return s.kind.text ++ ": " ++ s.name ++ " " ++ type
  | .field | .parameter | .localVariable => do
    let type ← types.describe s.type
    return s.kind.text ++ ": " ++ type ++ " " ++ s.name

namespace Arena

/-- The heading of a scope. A block, which has no name, says what it lies in. -/
def heading (a : Arena) (scope : Scope) : String :=
  match scope.kind with
  | .block =>
    let place := match scope.parent with
      | some parent => a.label parent
      | none => "?"
    "Statement Block Symbol Table ( located in " ++ place ++ " )"
  | kind => kind.text ++ " Symbol Table: " ++ scope.name

/-- The line that names the children of a scope, if it has any. -/
def childrenLine (a : Arena) (scope : Scope) : List String :=
  if scope.children.isEmpty then []
  else ["Children tables: " ++ ", ".intercalate (scope.children.map a.label)]

/-- The section of one scope. -/
def section_ (a : Arena) (types : TypeTable) (key : Nat) : Except TypeFault String :=
  match a.get? key with
  | none => .ok ""
  | some scope => do
    let symbols ← scope.symbols.mapM (Symbol.listing types)
    return "\n".intercalate
      (a.heading scope :: symbols.map ("    " ++ ·) ++ a.childrenLine scope)

/-- The listing of a scope and all below it. -/
def listing (a : Arena) (types : TypeTable) (root : Nat) : Except TypeFault String := do
  let sections ← (a.walk root).mapM (a.section_ types)
  return "\n\n".intercalate sections ++ "\n"

end Arena

end IcFront
