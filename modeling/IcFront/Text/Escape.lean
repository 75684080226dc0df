/-!
# Escapes in string literals

A backslash and the character after it stand for one character: `\n` for a
newline, `\t` for a tab, and any other character after a backslash for itself.
A backslash at the very end stands for itself too.
-/

namespace IcFront

/-- The character that a backslash before `c` stands for. -/
def escaped (c : Char) : Char :=
  if c = 'n' then '\n' else if c = 't' then '\t' else c

/-- The text that the body of a string literal stands for. -/
def unescape : List Char → List Char
  | [] => []
  | [c] => [c]
  | c :: d :: rest => if c = '\\' then escaped d :: unescape rest else c :: unescape (d :: rest)

end IcFront
