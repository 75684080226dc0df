import IcFront.Tables.Inheritance

/-!
# The tables of a program

`SymbolTables.ofProgram` makes the scopes and the type table of a program in
three rounds: all classes are registered, then each gets its scope with all
scopes below it, then each is placed below its superclass. Nothing in a program
stops it: what is wrong is among the diagnostics, in the order it was found.
-/

namespace IcFront

/-- The tables of a program. -/
structure SymbolTables where
  programName : String
  scopes : Arena
  globalScope : Nat
  types : TypeTable
  /-- The scope of each class, in the order of declaration. -/
  classScopes : List Nat
  /-- What happened while the tables were made. -/
  events : List Event

namespace SymbolTables

/-- What is wrong with the program, in the order it was found. -/
def diagnostics (t : SymbolTables) : List Diagnostic := t.events.filterMap Event.diagnostic?

/-- Whether anything is wrong with the program. -/
def hasErrors (t : SymbolTables) : Bool := !t.diagnostics.isEmpty

/-- The declaration that a name means in a scope. -/
def lookup (t : SymbolTables) (key : Nat) (name : String) : Option Symbol :=
  t.scopes.lookup key name

/-- Makes the tables of a program under a name, and gives the program with the
keys of its scopes. -/
def ofProgram {ε : Type} (p : Program ε) (name : String) : SymbolTables × Program ε :=
  let d : Draft := { types := .new name }
  let (d, global) := d.newScope .global name
  let (d, registered) := d.registerAll global p.classes
  let (d, classes) := d.classScopes registered
  let d := classes.foldl (Draft.place classes global) d
  ({ programName := name, scopes := d.scopes, globalScope := global, types := d.types,
     classScopes := classes.map (·.scope), events := d.events },
    { p with classes := classes.map (·.decl), scope := some global })

end SymbolTables

end IcFront
