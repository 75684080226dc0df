import IcFront.Library.Standard
import IcFront.Scopes.Listing
import IcFront.Syntax.Json
import IcFront.Syntax.ToDocument
import IcFront.Tables.SymbolTables
import IcFront.Types.Listing

/-!
# Compiling a program

`compile` parses a source text, puts the library class in front of its classes,
and builds the tables. The source is parsed before the library is looked at. A
program whose declarations are in error still compiles: what is wrong with it is
among its tables.
-/

namespace IcFront

/-- The library to compile with. -/
inductive LibraryChoice
  | none
  | standard
  | file (f : SourceFile)

namespace LibraryChoice

/-- What the path of a library is given as. -/
def path : LibraryChoice → String
  | none => ""
  | standard => standardPath
  | file f => f.path

/-- The library class, if there is a library. -/
def load : LibraryChoice → Except LibraryError (Option (ClassDecl Expr))
  | none => .ok Option.none
  | standard => loadStandard.map some
  | file f => f.loadLibrary.map some

end LibraryChoice

/-- Why a program does not compile. -/
inductive CompileError
  | source (e : ParseError)
  | library (e : LibraryError)
  deriving DecidableEq, Repr

/-- The wording of an error. -/
def CompileError.message : CompileError → String
  | source e => e.message
  | library e => e.message

/-- What is recorded while a program is compiled. -/
inductive LogRecord
  | loaded (methods : Nat) (path : String)
  | event (e : Event)
  | built (name : String) (scopes types diagnostics : Nat)
  deriving DecidableEq, Repr

namespace LogRecord

/-- The part of the program that a record comes from. -/
def source : LogRecord → String
  | loaded .. | built .. => "icc.compiler"
  | event _ => "icc.analysis.table_builder"

/-- The text of a record. -/
def text : LogRecord → String
  | loaded methods path =>
    "loaded " ++ toString methods ++ " library methods from " ++ path
  | event e => e.text
  | built name scopes types diagnostics =>
    (if name = "" then "<source>" else name) ++ ": " ++ toString scopes ++ " scopes, " ++
      toString types ++ " types, " ++ toString diagnostics ++ " diagnostics"

/-- The line of a record. -/
def line (r : LogRecord) : String := "DEBUG " ++ r.source ++ ": " ++ r.text

end LogRecord

/-- A compiled program: its syntax tree with the library class, its tables, and
what was recorded. -/
structure Compilation where
  program : Program Expr
  tables : SymbolTables
  log : List LogRecord

/-- A program with a class in front. -/
def Program.withLibrary (p : Program Expr) : Option (ClassDecl Expr) → Program Expr
  | none => p
  | some c => { p with classes := c :: p.classes }

/-- Compiles a source text under a name. -/
def compile (source : String) (name : String) (choice : LibraryChoice) :
    Except CompileError Compilation :=
  match Program.parse source with
  | .error e => .error (.source e)
  | .ok p =>
    match choice.load with
    | .error e => .error (.library e)
    | .ok library =>
      let program := p.withLibrary library
      let tables := (SymbolTables.ofProgram program name).1
      let loaded := library.toList.map fun c => LogRecord.loaded c.methods.length choice.path
      let built :=
        LogRecord.built name tables.scopes.size tables.types.size tables.diagnostics.length
      .ok { program, tables, log := loaded ++ tables.events.map .event ++ [built] }

namespace Compilation

/-- What is printed about a program: its syntax tree before the tables were
built, and its tables with an empty line between the two listings. -/
def dump (c : Compilation) (tree tables : Bool) : Except TypeFault String := do
  let treeText := if tree then (c.program.toDocument Expr.toDocument).toJson ++ "\n" else ""
  if tables then
    let symbols ← c.tables.scopes.listing c.tables.types c.tables.globalScope
    let types ← c.tables.types.listing
    return treeText ++ symbols ++ "\n" ++ types
  else return treeText

end Compilation

end IcFront
