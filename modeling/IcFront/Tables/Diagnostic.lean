import IcFront.Types.Entry

/-!
# Diagnostics

What is wrong with the declarations of a program. A semantic error does not stop
the construction of the tables: it is recorded, with a line, and what caused it
is left out.
-/

namespace IcFront

/-- The errors that a declaration can be rejected for. -/
inductive SemanticError
  /-- A name that is already declared in a place. -/
  | duplicateDeclaration (name : String) (place : String)
  | unresolvedSuperclass (className : String) (superclass : String)
  | cyclicInheritance (className : String) (superclass : String)
  | undefinedClass (className : String)
  deriving DecidableEq, Repr

namespace SemanticError

/-- The kind of an error. -/
def kind : SemanticError → String
  | duplicateDeclaration .. => "duplicate declaration"
  | unresolvedSuperclass .. => "unresolved superclass"
  | cyclicInheritance .. => "cyclic inheritance"
  | undefinedClass _ => "undefined class"

/-- The wording of an error. -/
def message : SemanticError → String
  | duplicateDeclaration name place => "'" ++ name ++ "' is already declared in " ++ place
  | unresolvedSuperclass className superclass =>
    "class '" ++ className ++ "' extends undefined class '" ++ superclass ++ "'"
  | cyclicInheritance className superclass =>
    "class '" ++ className ++ "' cannot extend '" ++ superclass ++ "': inheritance cycle"
  | undefinedClass className => "undefined class '" ++ className ++ "'"

end SemanticError

/-- An error at a line. -/
structure Diagnostic where
  error : SemanticError
  line : Int
  deriving DecidableEq, Repr

/-- The text of a diagnostic. -/
def Diagnostic.text (d : Diagnostic) : String :=
  "semantic error at line " ++ toString d.line ++ ": " ++ d.error.message

/-- What happens while tables are built, for those who want to follow it. -/
inductive Event
  | reported (d : Diagnostic)
  | registered (className : String) (id : TypeId)
  /-- A class was put under a scope, given as messages call it. -/
  | linked (className : String) (parent : String)
  deriving DecidableEq, Repr

namespace Event

/-- The diagnostic that an event reports. -/
def diagnostic? : Event → Option Diagnostic
  | reported d => some d
  | _ => none

/-- The text of an event. -/
def text : Event → String
  | reported d => d.text
  | registered className id => "registered class " ++ className ++ " as type " ++ toString id
  | linked className parent => "linked class " ++ className ++ " under " ++ parent

end Event

end IcFront
