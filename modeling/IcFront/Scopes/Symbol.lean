import IcFront.Types.Entry

/-!
# Symbols

A symbol is a name that a program declares, with the kind of its declaration,
its type, and its line.
-/

namespace IcFront

/-- The kinds of symbol. -/
inductive SymbolKind
  | class_
  | field
  | virtualMethod
  | staticMethod
  | parameter
  | localVariable
  deriving DecidableEq, Repr

namespace SymbolKind

/-- The name of a kind of symbol. -/
def text : SymbolKind → String
  | class_ => "Class"
  | field => "Field"
  | virtualMethod => "Virtual method"
  | staticMethod => "Static method"
  | parameter => "Parameter"
  | localVariable => "Local variable"

/-- Every kind of symbol. -/
def all : List SymbolKind :=
  [class_, field, virtualMethod, staticMethod, parameter, localVariable]

/-- The kind of symbol with a given name. -/
def ofText? (word : String) : Option SymbolKind :=
  all.find? fun k => k.text == word

/-- Whether a symbol of this kind is a method. -/
def isMethod : SymbolKind → Bool
  | virtualMethod | staticMethod => true
  | _ => false

end SymbolKind

/-- The kind of symbol that a method is. Only a virtual method is not static. -/
def MethodForm.symbolKind {ε : Type} : MethodForm ε → SymbolKind
  | virtual _ => .virtualMethod
  | static _ | library | unspecified _ => .staticMethod

/-- A declared name. -/
structure Symbol where
  name : String
  kind : SymbolKind
  type : TypeId
  line : Int := 0
  deriving DecidableEq, Repr

/-- Whether two symbols are the same but for their lines. -/
def Symbol.same (a : Symbol) (b : Symbol) : Bool :=
  a.name == b.name && a.kind == b.kind && a.type == b.type

end IcFront
