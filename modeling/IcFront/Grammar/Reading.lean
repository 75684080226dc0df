import IcFront.Grammar.Position
import IcFront.Grammar.Lexeme

/-!
# Reading a source text

`Reading.of` reads a text from the first character to the last. At each place
it skips layout, cuts off the token that the position expects, and feeds it to
the position. It keeps the tokens it has read, and ends with the parse tree of
the whole text or with the first fault:

- where no expected terminal stands, the fault is the token that would stand
  there if everything were expected, or else the character there;
- a token that is expected but leads nowhere is a fault itself;
- where the text ends before the program does, the fault lies on the line of
  the last token.
-/

namespace IcFront

/-- What is wrong where a text stops being the start of a program. -/
inductive Misfit
  | token (text : String)
  | character (c : Char)
  | endOfText
  deriving DecidableEq, Repr

/-- The tokens of a text, up to the end or the first fault, and what became of
them: a parse tree, or the line of the fault and the fault. -/
structure Reading where
  tokens : List Token
  result : Except (Nat × Misfit) ProgramTree

namespace Reading

/-- The reading with one more token in front. -/
def cons (t : Token) (r : Reading) : Reading := { r with tokens := t :: r.tokens }

/-- How many lines end in a text. -/
def lineEnds (cs : List Char) : Nat := cs.count '\n'

/-- What stands where nothing expected does. -/
def misfit (c : Char) (rest : List Char) : Misfit :=
  match lexeme? .anything (c :: rest) with
  | some l => .token (String.ofList ((c :: rest).take l.length))
  | none => .character c

/-- Reads the rest of a text from a position in the program. The rest starts on
a line, after a number of characters; the token before it started on line
`last`. -/
def go (p : Position) (cs : List Char) (line offset last : Nat) : Reading :=
  let blank := layout cs
  let line := line + lineEnds (cs.take blank)
  let offset := offset + blank
  match _hrest : cs.drop blank with
  | [] =>
    match p.finish? with
    | some program => ⟨[], .ok program⟩
    | none => ⟨[], .error (last, .endOfText)⟩
  | c :: rest =>
    match _hl : lexeme? p.expects (c :: rest) with
    | none => ⟨[], .error (line, misfit c rest)⟩
    | some l =>
      let text := (c :: rest).take l.length
      let token : Token := ⟨l.terminal, String.ofList text, line, offset⟩
      match p.feed token with
      | none => ⟨[], .error (line, .token token.text)⟩
      | some p =>
        cons token
          (go p ((c :: rest).drop l.length) (line + lineEnds text) (offset + l.length) line)
termination_by cs.length
decreasing_by
  have := lexeme?_bounds _hl
  have hlen := congrArg List.length _hrest
  simp only [List.length_drop, List.length_cons] at *
  omega

/-- Reads a whole text. -/
def of (source : String) : Reading := go .start source.toList 1 0 1

end Reading

end IcFront
