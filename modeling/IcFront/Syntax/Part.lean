import IcFront.Syntax.Document

/-!
# Parts of documents

What a syntax tree needs of the parts of a document, and what can be wrong with
them (`Malformed`). A part that is a document is smaller than what it is a part
of (`Document.Inside`), which is why reading a tree from a document ends.
-/

namespace IcFront

/-- Why a document is not a program. What was found is given as
`Document.kind`. -/
inductive Malformed
  | notAProgram (found : String)
  | notAClass (found : String)
  | notAField (className : String) (found : String)
  | notAMethod (className : String) (found : String)
  | notAFormal (method : String) (found : String)
  | notAType (found : String)
  | unknownPrimitive (name : String)
  /-- A misplaced statement, at a line if it has one. -/
  | notAStatement (found : String) (line : Option Int)
  | libraryBody (method : String)
  | notAnExpression (found : String)
  /-- A part that is missing or not of the sort that its node needs. -/
  | noPart (found : String) (part : String)
  deriving DecidableEq, Repr

/-- The wording of a malformation. -/
def Malformed.message : Malformed → String
  | notAProgram found => "expected a Program, got " ++ found
  | notAClass found => "expected a class declaration, got " ++ found
  | notAField className found => "expected a field in class " ++ className ++ ", got " ++ found
  | notAMethod className found => "expected a method in class " ++ className ++ ", got " ++ found
  | notAFormal method found => "expected a formal in method " ++ method ++ ", got " ++ found
  | notAType found => "expected a type, got " ++ found
  | unknownPrimitive name => "unknown primitive type '" ++ name ++ "'"
  | notAStatement found line =>
    "unexpected statement node " ++ found ++ " at line " ++
      match line with
      | some line => toString line
      | none => "?"
  | notAnExpression found => "expected an expression, got " ++ found
  | libraryBody method => "library method " ++ method ++ " has a body"
  | noPart found part => "'" ++ found ++ "' object has no attribute '" ++ part ++ "'"

namespace Document

/-- A document inside another. -/
abbrev Inside (d : Document) : Type := { e : Document // sizeOf e < sizeOf d }

theorem sizeOf_lookup_lt {name : String} {e : Document} :
    ∀ {parts : List (String × Document)}, parts.lookup name = some e → sizeOf e < sizeOf parts
  | [], h => by simp at h
  | (n, d) :: rest, h => by
    rw [List.lookup_cons] at h
    split at h
    · obtain rfl := Option.some.inj h
      simp
      omega
    · have := sizeOf_lookup_lt h
      simp
      omega

theorem sizeOf_part?_lt {d e : Document} {name : String} (h : d.part? name = some e) :
    sizeOf e < sizeOf d := by
  cases d with
  | node kind parts =>
    have : sizeOf e < sizeOf parts := sizeOf_lookup_lt h
    simp
    omega
  | _ => simp [part?] at h

/-- The part of a node with a given name. -/
def get (d : Document) (name : String) : Except Malformed d.Inside :=
  match h : d.part? name with
  | some e => .ok ⟨e, sizeOf_part?_lt h⟩
  | none => .error (.noPart d.kind name)

/-- The part of a node with a given name, unless it is null. -/
def get? (d : Document) (name : String) : Except Malformed (Option d.Inside) :=
  match d.get name with
  | .ok ⟨.null, _⟩ => .ok none
  | .ok e => .ok (some e)
  | .error e => .error e

/-- A part that is a text. -/
def getText (d : Document) (name : String) : Except Malformed String :=
  match d.part? name with
  | some (.text s) => .ok s
  | _ => .error (.noPart d.kind name)

/-- A part that is an integer. -/
def getInt (d : Document) (name : String) : Except Malformed Int :=
  match d.part? name with
  | some (.int n) => .ok n
  | _ => .error (.noPart d.kind name)

/-- The line of a node. -/
def line (d : Document) : Except Malformed Int := d.getInt "line"

/-- A part that is a list. -/
def getList (d : Document) (name : String) :
    Except Malformed { items : List Document // sizeOf items < sizeOf d } :=
  match d.get name with
  | .ok ⟨.list items, h⟩ => .ok ⟨items, by simp at h; omega⟩
  | .ok _ => .error (.noPart d.kind name)
  | .error e => .error e

/-- The scope key of a node, if it has one. -/
def scopeKey (d : Document) : Option Nat :=
  match d.part? "scope" with
  | some (.int (.ofNat k)) => some k
  | _ => none

end Document

end IcFront
