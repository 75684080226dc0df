import IcFront.CommandLine.Arguments
import IcFront.Compilation
import IcFront.Session
import IcFront.Text.Path

/-!
# The command

What the command does with its arguments, up to the reading of files: `run` is
given them as a function from paths to what is found there, and says what is
written to the two outputs and with which code the command exits.
-/

namespace IcFront

namespace CommandLine

/-- The usage of the command. -/
def usage : String :=
  "usage: icc [-h] [-L PATH] [--no-library] [--dump-ast] [--dump-symtab] [-v]\n" ++
    "           [--version]\n" ++
    "           [input]\n"

/-- The help of the command. -/
def help : String :=
  usage ++
    "\nIC compiler front end: parses .ic files and builds their symbol tables\n" ++
    "\npositional arguments:\n" ++
    "  input                 Input .ic file\n" ++
    "\noptions:\n" ++
    "  -h, --help            show this help message and exit\n" ++
    "  -L PATH, --library PATH\n" ++
    "                        Library signature file (default: bundled libic.sig)\n" ++
    "  --no-library          Do not add the Library class to the program\n" ++
    "  --dump-ast            Dump the AST as JSON\n" ++
    "  --dump-symtab         Print the symbol tables and the type table\n" ++
    "  -v, --verbose         Enable debug logging\n" ++
    "  --version             show program's version number and exit\n"

/-- The name and the version of the command. -/
def versionText : String := "icc 0.1.0\n"

/-- What a command ends with: what it wrote, and the code that it exits with,
unless it just ends. A source file that is not text ends it with a fault. -/
structure Outcome where
  stdout : String := ""
  stderr : String := ""
  exit : Option Nat := none
  fault : Option Utf8.Fault := none
  deriving Repr

/-- A text as a line. -/
def asLine (text : String) : String := text ++ "\n"

/-- The library that the settings ask for. -/
def libraryChoice (files : String → Option (List UInt8)) (s : Settings) : LibraryChoice :=
  if s.noLibrary then .none
  else
    match s.library with
    | none => .standard
    | some path => .file ⟨Path.normalise path, files (Path.normalise path)⟩

/-- Compiles a source text and reports on it. -/
def report (source : String) (name : String) (library : LibraryChoice) (s : Settings) : Outcome :=
  match compile source name library with
  | .error e => { stderr := asLine ("Error: " ++ e.message), exit := some 1 }
  | .ok c =>
    let log := if s.verbose then "".intercalate (c.log.map fun r => asLine r.line) else ""
    match c.dump s.dumpAst s.dumpSymtab with
    | .error fault => { stderr := log ++ asLine ("Error: " ++ fault.message), exit := some 1 }
    | .ok stdout =>
      let diagnostics := "".intercalate (c.tables.diagnostics.map fun d => asLine d.text)
      { stdout, stderr := log ++ diagnostics, exit := if c.tables.hasErrors then some 1 else none }

/-- Does what the settings ask for. -/
def runSettings (files : String → Option (List UInt8)) (s : Settings) : Outcome :=
  match s.input with
  | none => { stdout := help, exit := some 0 }
  | some input =>
    let path := Path.normalise input
    match files path with
    | none => { stderr := asLine ("Error: file not found: " ++ path), exit := some 1 }
    | some bytes =>
      match fileText bytes with
      | .error fault => { fault := some fault }
      | .ok source => report source (Path.fileName path) (libraryChoice files s) s

/-- Does what the arguments ask for. -/
def run (files : String → Option (List UInt8)) (args : List String) : Outcome :=
  match Command.ofArguments args with
  | .help => { stdout := help, exit := some 0 }
  | .version => { stdout := versionText, exit := some 0 }
  | .refused e => { stderr := usage ++ asLine ("icc: error: " ++ e.message), exit := some 2 }
  | .run s => runSettings files s

/-- The paths of the files that settings ask for. -/
def wanted (args : List String) : List String :=
  match Command.ofArguments args with
  | .run s => (s.input.toList ++ s.library.toList).map Path.normalise
  | _ => []

end CommandLine

end IcFront
