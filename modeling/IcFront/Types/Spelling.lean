import IcFront.Types.Table

/-!
# Spellings of types

How a type is written in messages and listings: a primitive type or a class by
its name, an array by its element and brackets, and a method by its parameters
and its result, as in `{int, A -> void}`.

A spelling fails where it meets an id that is not in the table. It cannot go on
for ever: a type nests no more types than the table has unless it contains
itself, and such a type has no spelling.
-/

namespace IcFront

namespace TypeTable

/-- The spelling of a type in which at most `depth` types are nested. -/
def describeWithin (t : TypeTable) : (depth : Nat) → TypeId → Except TypeFault String
  | 0, id => .error (.circular id)
  | depth + 1, id =>
    match t.entry? id with
    | none => .error (.unknownId id)
    | some (.primitive kind) => .ok kind.name
    | some (.class_ className) => .ok className
    | some (.array element) => do
      let element ← t.describeWithin depth element
      return element ++ "[]"
    | some (.method result parameters) => do
      let parameters ← parameters.mapM (t.describeWithin depth)
      let result ← t.describeWithin depth result
      return "\x7b" ++ ", ".intercalate parameters ++ " -> " ++ result ++ "\x7d"

/-- The spelling of a type. -/
def describe (t : TypeTable) (id : TypeId) : Except TypeFault String :=
  t.describeWithin (t.size + 1) id

end TypeTable

end IcFront
