import IcFront.Grammar.Meaning
import IcFront.Text.Newline
import IcFront.Text.Utf8

/-!
# Library signatures

A library signature file declares one class, named `Library`, whose members are
static methods without bodies. `loadLibrary` reads one and refuses any other
text. A program is compiled with the library class in front of its own classes.
-/

namespace IcFront

/-- The name of the library class. -/
def libraryName : String := "Library"

/-- Why a file is no library signature file. -/
inductive LibraryError
  | missing (path : String)
  | undecodable (fault : Utf8.Fault)
  | unparsable (e : ParseError)
  | notOneClass (path : String)
  | otherMembers
  | body (method : String)
  deriving DecidableEq, Repr

/-- The wording of an error. -/
def LibraryError.message : LibraryError → String
  | missing path => "Cannot find library signature file '" ++ path ++ "'"
  | undecodable fault => fault.message
  | unparsable e => e.message
  | notOneClass path => path ++ " must declare exactly one class named " ++ libraryName
  | otherMembers => libraryName ++ " may only declare library methods"
  | body method => libraryName ++ " method '" ++ method ++ "' must not have a body"

/-- The text of a file: its bytes read as UTF-8, with newlines at the ends of
lines. -/
def fileText (bytes : List UInt8) : Except Utf8.Fault String :=
  (Utf8.decode bytes).map fun cs => String.ofList (unifyNewlines cs)

/-- Whether a method is a library method. -/
def Method.isLibrary {ε : Type} (m : Method ε) : Bool :=
  match m.form with
  | .library => true
  | _ => false

/-- The library class of a program that is a library signature. -/
def libraryOf (path : String) (p : Program Expr) : Except LibraryError (ClassDecl Expr) :=
  match p.classes with
  | [c] =>
    if c.name ≠ libraryName then .error (.notOneClass path)
    else if c.superclass.isSome || !c.fields.isEmpty then .error .otherMembers
    else
      match c.methods.find? fun m => !m.isLibrary with
      | some m => .error (.body m.name)
      | none => .ok c
  | _ => .error (.notOneClass path)

/-- The library class that a signature text declares. -/
def loadLibrary (path : String) (text : String) : Except LibraryError (ClassDecl Expr) :=
  match Program.parse text with
  | .ok p => libraryOf path p
  | .error e => .error (.unparsable e)

/-- A file as it is found: its path, and its bytes if there is such a file. -/
structure SourceFile where
  path : String
  bytes : Option (List UInt8)

/-- The library class that a signature file declares. -/
def SourceFile.loadLibrary (f : SourceFile) : Except LibraryError (ClassDecl Expr) :=
  match f.bytes with
  | none => .error (.missing f.path)
  | some bytes =>
    match fileText bytes with
    | .error fault => .error (.undecodable fault)
    | .ok text => IcFront.loadLibrary f.path text

end IcFront
