import IcFront.Text.Blank
import IcFront.Text.Unassigned

/-!
# Texts quoted in messages

A text is quoted in single quotes, or in double quotes if it holds a single quote
and no double one. A backslash and the chosen quote are escaped, and so is what
cannot be seen: control and format characters, blanks other than the space,
characters for private use, and places that no character has.
-/

namespace IcFront

namespace Quoted

/-- The format characters, as ranges with both ends included. -/
def format : List (Nat × Nat) :=
  [(0xad, 0xad), (0x600, 0x605), (0x61c, 0x61c), (0x6dd, 0x6dd), (0x70f, 0x70f), (0x890, 0x891),
    (0x8e2, 0x8e2), (0x180e, 0x180e), (0x200b, 0x200f), (0x202a, 0x202e), (0x2060, 0x2064),
    (0x2066, 0x206f), (0xfeff, 0xfeff), (0xfff9, 0xfffb), (0x110bd, 0x110bd), (0x110cd, 0x110cd),
    (0x13430, 0x13438), (0x1bca0, 0x1bca3), (0x1d173, 0x1d17a), (0xe0001, 0xe0001),
    (0xe0020, 0xe007f)]

/-- Whether a number is that of a format character. -/
def isFormat (n : Nat) : Bool := format.any fun (first, last) => first ≤ n && n ≤ last

/-- Whether a number is that of a character for private use. -/
def isPrivate (n : Nat) : Bool := (0xe000 ≤ n && n ≤ 0xf8ff) || 0xf0000 ≤ n

/-- Whether a character is written as it is. -/
def isShown (c : Char) : Bool :=
  let n := c.toNat
  c = ' ' ||
    !(n < 0x20 || (0x7f ≤ n && n < 0xa0) || isBlank c || isFormat n || isPrivate n ||
      isUnassigned n)

/-- The lowest hexadecimal digits of a number. -/
def hex : (digits : Nat) → Nat → List Char
  | 0, _ => []
  | d + 1, n => hex d (n / 16) ++ [Nat.digitChar (n % 16)]

/-- A character between quotes. -/
def escape (quote : Char) (c : Char) : List Char :=
  if c = quote ∨ c = '\\' then ['\\', c]
  else if c = '\n' then ['\\', 'n']
  else if c = '\r' then ['\\', 'r']
  else if c = '\t' then ['\\', 't']
  else if isShown c then [c]
  else if c.toNat < 0x100 then '\\' :: 'x' :: hex 2 c.toNat
  else if c.toNat < 0x10000 then '\\' :: 'u' :: hex 4 c.toNat
  else '\\' :: 'U' :: hex 8 c.toNat

end Quoted

/-- A text in quotes. -/
def quoted (s : String) : String :=
  let cs := s.toList
  let quote := if cs.contains '\'' && !cs.contains '"' then '"' else '\''
  String.ofList (quote :: cs.flatMap (Quoted.escape quote) ++ [quote])

end IcFront
