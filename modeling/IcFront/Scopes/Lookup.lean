import IcFront.Scopes.Arena

/-!
# Finding one's way among scopes

Queries on an arena: the scopes around a scope, the scopes below it, what a name
means in it (`resolve`), and what it is called. In a tree of scopes a walk
along parents or children is no longer than the number of scopes, which is how
far every query here goes.
-/

namespace IcFront

namespace Arena

/-- The parent of a scope. -/
def parentOf (a : Arena) (key : Nat) : Option Nat := (a.get? key).bind (·.parent)

/-- The nearest `depth` scopes around a scope, innermost first. -/
def ancestorsWithin (a : Arena) : (depth : Nat) → (key : Nat) → List Nat
  | 0, _ => []
  | depth + 1, key =>
    match a.parentOf key with
    | none => []
    | some parent => parent :: a.ancestorsWithin depth parent

/-- The scopes around a scope, innermost first. -/
def ancestors (a : Arena) (key : Nat) : List Nat := a.ancestorsWithin a.size key

/-- The symbol declared in one scope under a name. -/
def lookupLocal (a : Arena) (key : Nat) (name : String) : Option Symbol :=
  (a.get? key).bind (·.lookup name)

/-- The declaration that a name means in a scope, with the scope that holds it:
the scope itself or the nearest one around it that declares the name. -/
def resolve (a : Arena) (key : Nat) (name : String) : Option (Nat × Symbol) :=
  (key :: a.ancestors key).findSome? fun k => (a.lookupLocal k name).map fun s => (k, s)

/-- The declaration that a name means in a scope. -/
def lookup (a : Arena) (key : Nat) (name : String) : Option Symbol :=
  (a.resolve key name).map (·.2)

/-- A scope and at most `depth` levels below it, each scope before its children. -/
def walkWithin (a : Arena) : (depth : Nat) → (root : Nat) → List Nat
  | 0, root => [root]
  | depth + 1, root => root :: (a.childrenOf root).flatMap (a.walkWithin depth)

/-- A scope and all below it, each scope before its children. -/
def walk (a : Arena) (root : Nat) : List Nat := a.walkWithin a.size root

/-- Whether a scope is that of a method. -/
def isMethod (a : Arena) (key : Nat) : Bool :=
  match a.get? key with
  | some scope => scope.kind = .method
  | none => false

/-- The innermost method scope that a scope is or lies in. -/
def enclosingMethod (a : Arena) (key : Nat) : Option Nat :=
  (key :: a.ancestors key).find? a.isMethod

/-- The name of a scope with a key. -/
def nameOf (a : Arena) (key : Nat) : String :=
  match a.get? key with
  | some scope => scope.name
  | none => ""

/-- What a scope is called in a list of scopes: its name, or for a block where
it lies. -/
def label (a : Arena) (key : Nat) : String :=
  match a.get? key with
  | none => ""
  | some scope =>
    match scope.kind with
    | .block =>
      "statement block in " ++
        match a.enclosingMethod key with
        | some m => a.nameOf m
        | none => "?"
    | _ => scope.name

/-- What the scope with a key is called in messages. -/
def describe (a : Arena) (key : Nat) : String :=
  match a.get? key with
  | some scope => scope.describe
  | none => ""

end Arena

end IcFront
