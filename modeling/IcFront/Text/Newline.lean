/-!
# Line ends of files

A line of a file may end in a newline, in a carriage return, or in both. What is
read from a file has newlines only.
-/

namespace IcFront

/-- The text with every line ended by a newline. -/
def unifyNewlines : List Char → List Char
  | [] => []
  | '\r' :: '\n' :: rest => '\n' :: unifyNewlines rest
  | '\r' :: rest => '\n' :: unifyNewlines rest
  | c :: rest => c :: unifyNewlines rest

end IcFront
