/-!
# The tokens of the IC language

A source text is a sequence of *tokens* between which layout may stand. This
file names the kinds of token, the **terminals**: reserved words, signs, class
names, other names, integers, string literals, and the empty brackets `[]` of
an array type, which are one token even with blanks between them.

A terminal that always has the same spelling carries it (`Keyword.text`,
`Sign.text`); a `Token` is a terminal together with the text it was read from
and the place it was read at.
-/

namespace IcFront

/-- The words that the grammar reserves. -/
inductive Keyword
  | class_
  | extends_
  | static
  | int
  | boolean
  | string
  | void
  | return_
  | if_
  | else_
  | while_
  | break_
  | continue_
  | this
  | new
  | true_
  | false_
  | null
  | length
  deriving DecidableEq, Repr

namespace Keyword

/-- The spelling of a reserved word. -/
def text : Keyword → String
  | class_ => "class"
  | extends_ => "extends"
  | static => "static"
  | int => "int"
  | boolean => "boolean"
  | string => "string"
  | void => "void"
  | return_ => "return"
  | if_ => "if"
  | else_ => "else"
  | while_ => "while"
  | break_ => "break"
  | continue_ => "continue"
  | this => "this"
  | new => "new"
  | true_ => "true"
  | false_ => "false"
  | null => "null"
  | length => "length"

/-- Every reserved word. No spelling is a prefix of another, so the order does
not matter to a search by prefix. -/
def all : List Keyword :=
  [class_, extends_, static, int, boolean, string, void, return_, if_, else_, while_,
    break_, continue_, this, new, true_, false_, null, length]

/-- The reserved word with a given spelling. -/
def ofText? (word : String) : Option Keyword :=
  all.find? fun k => k.text == word

end Keyword

/-- Punctuation and operators. -/
inductive Sign
  | lbrace
  | rbrace
  | lparen
  | rparen
  | lbracket
  | rbracket
  | comma
  | semicolon
  | dot
  | assign
  | or
  | and
  | eq
  | ne
  | lt
  | le
  | gt
  | ge
  | plus
  | minus
  | star
  | slash
  | percent
  | not
  deriving DecidableEq, Repr

namespace Sign

/-- The spelling of a sign. -/
def text : Sign → String
  | lbrace => "\x7b"
  | rbrace => "\x7d"
  | lparen => "("
  | rparen => ")"
  | lbracket => "["
  | rbracket => "]"
  | comma => ","
  | semicolon => ";"
  | dot => "."
  | assign => "="
  | or => "||"
  | and => "&&"
  | eq => "=="
  | ne => "!="
  | lt => "<"
  | le => "<="
  | gt => ">"
  | ge => ">="
  | plus => "+"
  | minus => "-"
  | star => "*"
  | slash => "/"
  | percent => "%"
  | not => "!"

/-- Every sign, those of two characters before those of one, so that the first
one found at a place is the longest. -/
def all : List Sign :=
  [or, and, eq, ne, le, ge, lbrace, rbrace, lparen, rparen, lbracket, rbracket, comma,
    semicolon, dot, assign, lt, gt, plus, minus, star, slash, percent, not]

end Sign

/-- The kinds of token. -/
inductive Terminal
  | keyword (k : Keyword)
  | sign (s : Sign)
  /-- A name that starts with an upper-case letter. -/
  | className
  /-- A name that starts with a lower-case letter. -/
  | name
  | integer
  | text
  /-- The empty brackets of an array type. -/
  | brackets
  deriving DecidableEq, Repr

/-- A token as it stands in a source text: what it is, how it is written, the
line it starts on (from 1) and the number of characters before it. -/
structure Token where
  terminal : Terminal
  text : String
  line : Nat
  offset : Nat
  deriving DecidableEq, Repr

end IcFront
