import IcFront.Types.Entry

/-!
# The type table

Every type of a program has an id in its `TypeTable`: 1 for the first entry, and
so on in the order in which types are asked for. Primitive, array and method
types are structural: asking for the same one twice gives the same id
(`intern`). Class types are nominal: each declaration gets an id of its own
(`internClass`), and a class name means the first class declared under it
(`lookupClass`).

Ids are integers and not indices, since an operation may be handed any number.
The element of an array is checked to be in the table; the parts of a method
type are not, so that a method type may refer to types that do not exist.
-/

namespace IcFront

/-- Why an operation on a type table fails. -/
inductive TypeFault
  | unknownId (id : TypeId)
  | notAClass (id : TypeId)
  /-- The class to get a superclass, and a name that no class has. -/
  | unresolvedSuperclass (className : String) (superclass : String)
  /-- A description that would contain itself. -/
  | circular (id : TypeId)
  deriving DecidableEq, Repr

/-- A table of types: a name, the types in the order of their ids, and the
superclasses of classes, the newest first. -/
structure TypeTable where
  name : String
  entries : List TypeEntry
  superclasses : List (TypeId × TypeId) := []
  deriving Repr

namespace TypeTable

/-- The table that holds the primitive types only. -/
def new (name : String) : TypeTable :=
  { name, entries := PrimitiveKind.all.map .primitive }

/-- The number of types. -/
def size (t : TypeTable) : Nat := t.entries.length

/-- The type with an id. -/
def entry? (t : TypeTable) (id : TypeId) : Option TypeEntry :=
  if 1 ≤ id then t.entries[id.toNat - 1]? else none

/-- The table with one more type, and the id of that type. -/
def add (t : TypeTable) (e : TypeEntry) : TypeTable × TypeId :=
  ({ t with entries := t.entries ++ [e] }, t.entries.length + 1)

/-- The least id of a type. -/
def find? (t : TypeTable) (e : TypeEntry) : Option TypeId :=
  (t.entries.findIdx? (· == e)).map fun i => (i : TypeId) + 1

/-- The table with a type in it, added only if it is not there yet, and the
type's id. -/
def intern (t : TypeTable) (e : TypeEntry) : TypeTable × TypeId :=
  match t.find? e with
  | some id => (t, id)
  | none => t.add e

/-- The id of a primitive type. -/
def internPrimitive (t : TypeTable) (kind : PrimitiveKind) : TypeTable × TypeId :=
  t.intern (.primitive kind)

/-- A new class type. -/
def internClass (t : TypeTable) (className : String) : TypeTable × TypeId :=
  t.add (.class_ className)

/-- The id of the type of arrays of a type of the table. -/
def internArray (t : TypeTable) (element : TypeId) : Except TypeFault (TypeTable × TypeId) :=
  match t.entry? element with
  | some _ => .ok (t.intern (.array element))
  | none => .error (.unknownId element)

/-- The id of a method type. -/
def internMethod (t : TypeTable) (result : TypeId) (parameters : List TypeId) :
    TypeTable × TypeId :=
  t.intern (.method result parameters)

/-- The id of the first class with a name. -/
def lookupClass (t : TypeTable) (className : String) : Option TypeId := t.find? (.class_ className)

/-- Makes the class with a name the superclass of a class, and gives its id. -/
def setSuperclass (t : TypeTable) (id : TypeId) (superclass : String) :
    Except TypeFault (TypeTable × TypeId) :=
  match t.entry? id with
  | none => .error (.unknownId id)
  | some (.class_ className) =>
    match t.lookupClass superclass with
    | none => .error (.unresolvedSuperclass className superclass)
    | some s => .ok ({ t with superclasses := (id, s) :: t.superclasses }, s)
  | some _ => .error (.notAClass id)

/-- The id of the superclass of a class. -/
def superclassOf (t : TypeTable) (id : TypeId) : Option TypeId := t.superclasses.lookup id

/-- The ids of all types of a sort, in increasing order. -/
def idsOf (t : TypeTable) (kind : TypeKind) : List TypeId :=
  (t.entries.zipIdx.filter fun (e, _) => e.kind == kind).map fun (_, i) => (i : TypeId) + 1

end TypeTable

end IcFront
