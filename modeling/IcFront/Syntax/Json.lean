import IcFront.Syntax.Document

/-!
# Documents as JSON text

`Document.toJson` writes a document as JSON, one value or part a line, each
level indented by two blanks. A node is an object whose first member `_type` is
its kind, followed by its parts in their order. The text holds visible ASCII
characters, blanks and newlines only: every other character is written by its
UTF-16 units, so one beyond the basic plane as a surrogate pair.
-/

namespace IcFront

namespace Json

/-- A hexadecimal digit. -/
def hexDigit (n : Nat) : Char := Nat.digitChar (n % 16)

/-- A 16-bit unit as an escape. -/
def unitEscape (n : Nat) : List Char :=
  ['\\', 'u', hexDigit (n / 4096), hexDigit (n / 256), hexDigit (n / 16), hexDigit n]

/-- The UTF-16 units of a character as escapes. -/
def unitEscapes (c : Char) : List Char :=
  let n := c.toNat
  if n < 0x10000 then unitEscape n
  else
    unitEscape (0xd800 + (n - 0x10000) / 0x400) ++ unitEscape (0xdc00 + (n - 0x10000) % 0x400)

/-- A character inside a JSON string. -/
def escapeChar (c : Char) : List Char :=
  if c = '"' then ['\\', '"']
  else if c = '\\' then ['\\', '\\']
  else if c = '\n' then ['\\', 'n']
  else if c = '\r' then ['\\', 'r']
  else if c = '\t' then ['\\', 't']
  else if c = '\x08' then ['\\', 'b']
  else if c = '\x0c' then ['\\', 'f']
  else if 0x20 ≤ c.toNat ∧ c.toNat < 0x7f then [c]
  else unitEscapes c

/-- A text as a JSON string. -/
def quote (s : String) : List Char := '"' :: s.toList.flatMap escapeChar ++ ['"']

/-- A number with decimal places: at least one digit stands before the point. -/
def decimal (digits : Int) (places : Nat) : List Char :=
  let ds := (toString digits.natAbs).toList
  let ds := List.replicate (places + 1 - ds.length) '0' ++ ds
  let whole := ds.length - places
  (if digits < 0 then ['-'] else []) ++ ds.take whole ++ '.' :: ds.drop whole

/-- A new line at a level. -/
def newline (level : Nat) : List Char := '\n' :: List.replicate (2 * level) ' '

/-- A bracketed sequence, whose members stand on lines of their own at the next
level. -/
def bracketed (level : Nat) (opening closing : Char) : List (List Char) → List Char
  | [] => [opening, closing]
  | first :: rest =>
    opening :: newline (level + 1) ++ first ++
      rest.flatMap (fun member => ',' :: newline (level + 1) ++ member) ++
      newline level ++ [closing]

/-- A member of an object. -/
def pair (name : String) (value : List Char) : List Char := quote name ++ [':', ' '] ++ value

end Json

namespace Document

mutual

/-- A document as JSON at a level. -/
def jsonAt (level : Nat) : Document → List Char
  | null => "null".toList
  | bool true => "true".toList
  | bool false => "false".toList
  | int n => (toString n).toList
  | decimal digits places => Json.decimal digits places
  | text s => Json.quote s
  | literalKind k => Json.quote ("LiteralKind." ++ k.constant)
  | list items => Json.bracketed level '[' ']' (jsonItems (level + 1) items)
  | node kind parts =>
    Json.bracketed level '\x7b' '\x7d'
      (Json.pair "_type" (Json.quote kind) :: jsonParts (level + 1) parts)

/-- The items of a list as JSON at a level. -/
def jsonItems (level : Nat) : List Document → List (List Char)
  | [] => []
  | d :: ds => d.jsonAt level :: jsonItems level ds

/-- The parts of a node as JSON at a level. -/
def jsonParts (level : Nat) : List (String × Document) → List (List Char)
  | [] => []
  | (name, d) :: rest => Json.pair name (d.jsonAt level) :: jsonParts level rest

end

/-- A document as JSON text. -/
def toJson (d : Document) : String := String.ofList (d.jsonAt 0)

end Document

end IcFront
