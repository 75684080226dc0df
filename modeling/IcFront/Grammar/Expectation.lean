import IcFront.Syntax.Token

/-!
# What may come next

At each place of a source text only some terminals are looked for. What is
looked for decides how the text is cut into tokens: where a name may stand, a
reserved word that is not looked for is a name, and where none may stand, a
reserved word need not end at the end of a word.

The sets are those of an LALR(1) automaton for the grammar. Places that the
automaton does not tell apart look for the same terminals, so that some of
those looked for at a place do not fit there: after any operand all closing
brackets are looked for, whichever is open.
-/

namespace IcFront

/-- A set of terminals. -/
abbrev Expectation := Terminal → Bool

namespace Expectation

/-- Exactly one terminal. -/
def only (t : Terminal) : Expectation := fun u => u == t

/-- Every terminal. -/
def anything : Expectation := fun _ => true

/-- The start of a type. -/
def type : Expectation
  | .keyword .int | .keyword .boolean | .keyword .string | .keyword .void | .className => true
  | _ => false

/-- The name that a type declares, or further brackets of the type. The
opening bracket of an array size is looked for too, except where a class name
cannot be that of a new array. -/
def declared (sized : Bool) : Expectation
  | .name | .brackets => true
  | .sign .lbracket => sized
  | _ => false

/-- A member of a class, or the end of the class. -/
def member : Expectation
  | .keyword .static | .sign .rbrace => true
  | t => type t

/-- The start of an operand that is no unary operator and no class name. -/
def plainOperand : Expectation
  | .name | .integer | .text | .sign .lparen
  | .keyword .this | .keyword .new | .keyword .true_ | .keyword .false_ | .keyword .null => true
  | _ => false

/-- The start of an expression. -/
def operand : Expectation
  | .className | .sign .minus | .sign .not => true
  | t => plainOperand t

/-- The start of a statement. An expression statement cannot start with a unary
operator. -/
def statement : Expectation
  | .keyword .return_ | .keyword .if_ | .keyword .while_ | .keyword .break_
  | .keyword .continue_ | .sign .lbrace => true
  | t => type t || plainOperand t

/-- What may follow an operand in some expression. -/
def operator : Expectation
  | .sign .lbrace | .sign .rbrace | .sign .lparen | .sign .not => false
  | .sign _ => true
  | _ => false

end Expectation

end IcFront
