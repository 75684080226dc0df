import IcFront.Tables.Class

/-!
# Inheritance

The scope of a class lies below that of its superclass, so that names are looked
up in the superclass next. Classes are placed in their order; a name in
`extends` means the first class declared under it.

A class whose superclass already lies below it would close a cycle, and one
whose superclass is not declared has nothing to lie below. Both are reported
and placed below the global scope, without a superclass.
-/

namespace IcFront

variable {ε : Type}

/-- Whether a scope is another one or lies below it. -/
def Arena.liesIn (a : Arena) (scope ancestor : Nat) : Bool :=
  scope == ancestor || (a.ancestors scope).contains ancestor

/-- The scope of the first class with a name. -/
def firstNamed (classes : List (ScopedClass ε)) (name : String) : Option Nat :=
  (classes.find? fun c => c.decl.name == name).map (·.scope)

namespace Draft

/-- Gives a class a superclass. The scope that it is to lie below comes with it,
or the reason why it cannot have that superclass. -/
def inherit (d : Draft) (classes : List (ScopedClass ε)) (c : ScopedClass ε)
    (superclass : String) : Except SemanticError (Draft × Nat) :=
  match firstNamed classes superclass with
  | none => .error (.unresolvedSuperclass c.decl.name superclass)
  | some parent =>
    if d.scopes.liesIn parent c.scope then .error (.cyclicInheritance c.decl.name superclass)
    else
      match d.types.setSuperclass c.type superclass with
      | .ok (types, _) => .ok ({ d with types }, parent)
      | .error _ => .error (.unresolvedSuperclass c.decl.name superclass)

/-- Places a class below its superclass, or below the global scope. -/
def place (classes : List (ScopedClass ε)) (global : Nat) (d : Draft) (c : ScopedClass ε) :
    Draft :=
  let (d, parent) :=
    match c.decl.superclass with
    | none => (d, global)
    | some superclass =>
      match d.inherit classes c superclass with
      | .ok (d, parent) => (d, parent)
      | .error e => (d.report e c.decl.line, global)
  let d := d.attach parent c.scope
  d.note (.linked c.decl.name (d.scopes.describe parent))

end Draft

end IcFront
