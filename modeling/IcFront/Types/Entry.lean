import IcFront.Syntax.Tree

/-!
# Types

What a type is, apart from any table: one of the primitive types, a class, an
array or a method. The parts of a type are other types, referred to by the ids
that a table gives them.
-/

namespace IcFront

/-- The primitive types. The type of `null` has no spelling in a declaration. -/
inductive PrimitiveKind
  | int
  | boolean
  | null
  | string
  | void
  deriving DecidableEq, Repr

namespace PrimitiveKind

/-- The name of a primitive type. -/
def name : PrimitiveKind → String
  | int => "int"
  | boolean => "boolean"
  | null => "null"
  | string => "string"
  | void => "void"

/-- Every primitive type, in the order of their ids. -/
def all : List PrimitiveKind := [int, boolean, null, string, void]

/-- The primitive type with a given name. -/
def ofName? (name : String) : Option PrimitiveKind :=
  all.find? fun k => k.name == name

end PrimitiveKind

/-- The type that a declaration spells as a primitive. -/
def Primitive.kind : Primitive → PrimitiveKind
  | int => .int
  | boolean => .boolean
  | string => .string
  | void => .void

/-- The number of a type in its table. -/
abbrev TypeId := Int

/-- What a type is. -/
inductive TypeEntry
  | primitive (kind : PrimitiveKind)
  | class_ (name : String)
  | array (element : TypeId)
  | method (result : TypeId) (parameters : List TypeId)
  deriving DecidableEq, Repr

/-- The four sorts of type. -/
inductive TypeKind
  | primitive
  | class_
  | array
  | method
  deriving DecidableEq, Repr

namespace TypeKind

/-- The name of a sort of type. -/
def text : TypeKind → String
  | primitive => "primitive"
  | class_ => "class"
  | array => "array"
  | method => "method"

/-- Every sort of type. -/
def all : List TypeKind := [primitive, class_, array, method]

/-- The sort of type with a given name. -/
def ofText? (word : String) : Option TypeKind :=
  all.find? fun k => k.text == word

end TypeKind

/-- The sort of a type. -/
def TypeEntry.kind : TypeEntry → TypeKind
  | primitive _ => .primitive
  | class_ _ => .class_
  | array _ => .array
  | method .. => .method

end IcFront
