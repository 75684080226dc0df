import IcFront.Proofs.Syntax.Marks

/-!
# Reading JSON

What a JSON text says is a `Json.Value`, with numbers of any size, the characters of
strings, and the members of objects in their order. `Json.read` reads a text in two rounds.
First it is cut into tokens (`tokens?`): the six signs, strings, and what stands between
blanks, signs and quotes, which has to be one of three words or a number. Then the tokens
are taken one by one (`State.feed`), with the arrays and objects that are open.

A string is read by its code units (`codes?`), and a pair of surrogates is one character
(`chars?`). A surrogate without its other half is no character, so a text with one is not
read.

Each value has tokens of its own (`Value.tokens`), and what is read from these is the value
(`State.run_tokens`). So a text is read as a value if it can be cut into the value's tokens.
-/

namespace IcFront

namespace Json

/-- What JSON can say. -/
inductive Value
  | null
  | bool (value : Bool)
  /-- A number: digits and a power of ten. -/
  | number (digits : Int) (exponent : Int)
  | string (value : String)
  | array (items : List Value)
  | object (members : List (String × Value))

/-- The tokens of JSON. Words and numbers are `bare`. -/
inductive Token
  | lbracket
  | rbracket
  | lbrace
  | rbrace
  | comma
  | colon
  | text (value : String)
  | bare (value : Value)

/-! ## Tokens -/

/-- The blanks between tokens. -/
def isSpace (c : Char) : Bool := c = ' ' || c = '\t' || c = '\n' || c = '\r'

/-- The sign that a character is. -/
def sign? (c : Char) : Option Token :=
  if c = '[' then some .lbracket
  else if c = ']' then some .rbracket
  else if c = '\x7b' then some .lbrace
  else if c = '\x7d' then some .rbrace
  else if c = ',' then some .comma
  else if c = ':' then some .colon
  else none

/-- Whether a character does not end a word or number. -/
def isBare (c : Char) : Bool := !(isSpace c || (sign? c).isSome || c = '"')

/-- The value of a hexadecimal digit. -/
def hexValue? (c : Char) : Option Nat :=
  if '0' ≤ c ∧ c ≤ '9' then some (c.toNat - '0'.toNat)
  else if 'a' ≤ c ∧ c ≤ 'f' then some (c.toNat - 'a'.toNat + 10)
  else if 'A' ≤ c ∧ c ≤ 'F' then some (c.toNat - 'A'.toNat + 10)
  else none

/-- The 16-bit unit that four hexadecimal digits write. -/
def unit? (a b c d : Char) : Option Nat := do
  return 4096 * (← hexValue? a) + 256 * (← hexValue? b) + 16 * (← hexValue? c) + (← hexValue? d)

/-- The character that a backslash and another character stand for. -/
def shortEscape? (c : Char) : Option Char :=
  if c = '"' ∨ c = '\\' ∨ c = '/' then some c
  else if c = 'b' then some '\x08'
  else if c = 'f' then some '\x0c'
  else if c = 'n' then some '\n'
  else if c = 'r' then some '\r'
  else if c = 't' then some '\t'
  else none

/-- One more code in front of those that are read, with the text after them. -/
def before (code : Nat) (read : List Nat × List Char) : List Nat × List Char :=
  (code :: read.1, read.2)

/-- The codes in a string up to its closing quote, and the text after that. An escape by
digits has one code, and any other character or escape that of the character. -/
def codes? : List Char → Option (List Nat × List Char)
  | [] => none
  | c :: rest =>
    if c = '"' then some ([], rest)
    else if c = '\\' then
      match rest with
      | [] => none
      | e :: rest =>
        if e = 'u' then
          match rest with
          | x :: y :: z :: w :: rest =>
            (unit? x y z w).bind fun code => (codes? rest).map (before code)
          | _ => none
        else (shortEscape? e).bind fun c => (codes? rest).map (before c.toNat)
    else if c.toNat < 0x20 then none
    else (codes? rest).map (before c.toNat)

/-- Whether a code is the first half of a character. -/
def isLead (code : Nat) : Bool := 0xd800 ≤ code && code < 0xdc00

/-- Whether a code is the second half of a character. -/
def isTrail (code : Nat) : Bool := 0xdc00 ≤ code && code < 0xe000

/-- The characters that codes are, two halves of one taken together. -/
def chars? : List Nat → Option (List Char)
  | [] => some []
  | code :: rest =>
    if isTrail code then none
    else if isLead code then
      match rest with
      | [] => none
      | code' :: rest =>
        if isTrail code' then
          (chars? rest).map
            (Char.ofNat (0x10000 + 0x400 * (code - 0xd800) + (code' - 0xdc00)) :: ·)
        else none
    else (chars? rest).map (Char.ofNat code :: ·)

/-- The decimal places after a number, and the text after them. -/
def places? : List Char → Option (List Char × List Char)
  | '.' :: rest =>
    if rest.takeWhile isDigit = [] then none
    else some (rest.takeWhile isDigit, rest.dropWhile isDigit)
  | cs => some ([], cs)

/-- The exponent at the end of a number. -/
def exponent? : List Char → Option Int
  | [] => some 0
  | c :: rest =>
    let (negative, digits) :=
      match rest with
      | '-' :: digits => (true, digits)
      | '+' :: digits => (false, digits)
      | digits => (false, digits)
    if (c = 'e' ∨ c = 'E') ∧ digits ≠ [] ∧ digits.all isDigit then
      let n : Int := digitsValue digits
      some (if negative then -n else n)
    else none

/-- The number that a text without a sign is. It starts with 0 only if that is all that
stands before the point. -/
def magnitude? (cs : List Char) : Option (Nat × Int) :=
  let whole := cs.takeWhile isDigit
  if whole = [] ∨ (whole.head? = some '0' ∧ whole ≠ ['0']) then none
  else do
    let (places, rest) ← places? (cs.dropWhile isDigit)
    let exponent ← exponent? rest
    return (digitsValue (whole ++ places), exponent - places.length)

/-- The number that a text is. -/
def number? : List Char → Option Value
  | '-' :: cs => (magnitude? cs).map fun x => .number (-x.1) x.2
  | cs => (magnitude? cs).map fun x => .number x.1 x.2

/-- The value that a text without blanks, signs and quotes is. -/
def bare? (cs : List Char) : Option Value :=
  if cs = "null".toList then some .null
  else if cs = "true".toList then some (.bool true)
  else if cs = "false".toList then some (.bool false)
  else number? cs

theorem exists_codes?_of_before {cs rest : List Char} {code : Nat} {codes : List Nat}
    (h : (codes? cs).map (before code) = some (codes, rest)) :
    ∃ codes, codes? cs = some (codes, rest) := by
  obtain ⟨read, hread, heq⟩ := Option.map_eq_some_iff.mp h
  cases heq
  exact ⟨read.1, hread⟩

theorem length_lt_of_codes? {cs rest : List Char} {codes : List Nat}
    (h : codes? cs = some (codes, rest)) : rest.length < cs.length := by
  fun_induction codes? cs generalizing codes with
  | case2 =>
    cases h
    exact Nat.lt_succ_self _
  | case4 x y z w tail _ ih =>
    obtain ⟨code, -, h⟩ := Option.bind_eq_some_iff.mp h
    obtain ⟨codes, h⟩ := exists_codes?_of_before h
    have := ih h
    simp only [List.length_cons]
    omega
  | case6 e tail _ _ ih =>
    obtain ⟨c, -, h⟩ := Option.bind_eq_some_iff.mp h
    obtain ⟨codes, h⟩ := exists_codes?_of_before h
    have := ih h
    simp only [List.length_cons]
    omega
  | case8 c tail _ _ _ ih =>
    obtain ⟨codes, h⟩ := exists_codes?_of_before h
    exact Nat.lt_succ_of_lt (ih h)
  | case1 | case3 | case5 | case7 => cases h

/-- The tokens of a text. -/
def tokens? (cs : List Char) : Option (List Token) :=
  match cs with
  | [] => some []
  | c :: rest =>
    if isSpace c then tokens? rest
    else if c = '"' then
      match _h : codes? rest with
      | none => none
      | some (codes, rest) =>
        (chars? codes).bind fun value =>
          (tokens? rest).map (.text (String.ofList value) :: ·)
    else
      match sign? c with
      | some t => (tokens? rest).map (t :: ·)
      | none =>
        (bare? (c :: rest.takeWhile isBare)).bind fun value =>
          (tokens? (rest.dropWhile isBare)).map (.bare value :: ·)
termination_by cs.length
decreasing_by
  · simp
  · have := length_lt_of_codes? _h
    simp only [List.length_cons]
    omega
  · simp
  · have := (List.dropWhile_sublist (p := isBare) (l := rest)).length_le
    simp only [List.length_cons]
    omega

/-! ## Values -/

/-- An array or object that is not closed yet, with the values in it from the last one to
the first, and for an object the name of the member that is read. -/
inductive Frame
  | array (items : List Value)
  | object (members : List (String × Value)) (name : String)

/-- Where the reader stands among tokens, with the arrays and objects that are open,
innermost first. -/
inductive State
  /-- Before a value. -/
  | value (stack : List Frame)
  | afterLbracket (stack : List Frame)
  | afterItem (items : List Value) (stack : List Frame)
  | afterLbrace (stack : List Frame)
  | afterMember (members : List (String × Value)) (stack : List Frame)
  /-- Before the name of a further member. -/
  | beforeName (members : List (String × Value)) (stack : List Frame)
  | afterName (members : List (String × Value)) (name : String) (stack : List Frame)
  | done (value : Value)

namespace State

/-- After a value. -/
def complete (v : Value) : List Frame → State
  | [] => done v
  | .array items :: stack => afterItem (v :: items) stack
  | .object members name :: stack => afterMember ((name, v) :: members) stack

/-- A token that starts a value. -/
def start (stack : List Frame) : Token → Option State
  | .bare v => some (complete v stack)
  | .text s => some (complete (.string s) stack)
  | .lbracket => some (afterLbracket stack)
  | .lbrace => some (afterLbrace stack)
  | _ => none

/-- One token on. -/
def feed : State → Token → Option State
  | value stack, t => start stack t
  | afterLbracket stack, .rbracket => some (complete (.array []) stack)
  | afterLbracket stack, t => start (.array [] :: stack) t
  | afterItem items stack, .comma => some (value (.array items :: stack))
  | afterItem items stack, .rbracket => some (complete (.array items.reverse) stack)
  | afterLbrace stack, .rbrace => some (complete (.object []) stack)
  | afterLbrace stack, .text n => some (afterName [] n stack)
  | afterMember members stack, .comma => some (beforeName members stack)
  | afterMember members stack, .rbrace => some (complete (.object members.reverse) stack)
  | beforeName members stack, .text n => some (afterName members n stack)
  | afterName members n stack, .colon => some (value (.object members n :: stack))
  | _, _ => none

/-- Many tokens on. -/
def run (s : State) (ts : List Token) : Option State := ts.foldlM feed s

end State

/-- The value that tokens are. -/
def ofTokens? (ts : List Token) : Option Value :=
  match (State.value []).run ts with
  | some (.done v) => some v
  | _ => none

/-- The value that a text says. -/
def read (text : String) : Option Value := (tokens? text.toList).bind ofTokens?

/-! ## The tokens of a value -/

namespace Value

mutual

/-- The tokens of a value. -/
def tokens : Value → List Token
  | array items => .lbracket :: separated .comma (tokensOfItems items) ++ [.rbracket]
  | object members => .lbrace :: separated .comma (tokensOfMembers members) ++ [.rbrace]
  | string s => [.text s]
  | v => [.bare v]

/-- The tokens of each item of an array. -/
def tokensOfItems : List Value → List (List Token)
  | [] => []
  | v :: vs => v.tokens :: tokensOfItems vs

/-- The tokens of each member of an object. -/
def tokensOfMembers : List (String × Value) → List (List Token)
  | [] => []
  | (name, v) :: rest => (.text name :: .colon :: v.tokens) :: tokensOfMembers rest

end

end Value

namespace State

theorem run_cons (s : State) (t : Token) (ts : List Token) :
    s.run (t :: ts) = (s.feed t).bind (·.run ts) := rfl

theorem run_append {s s' : State} {ts : List Token} (h : s.run ts = some s') (ts' : List Token) :
    s.run (ts ++ ts') = s'.run ts' := by
  rw [run, List.foldlM_append]
  exact congrArg (Option.bind · fun s => s.run ts') h

/-- What follows an opening bracket is the first item, if it is not the closing one. -/
theorem run_afterLbracket (v : Value) (stack : List Frame) :
    (afterLbracket stack).run v.tokens = (value (.array [] :: stack)).run v.tokens := by
  cases v <;> rfl

mutual

/-- What is read from the tokens of a value is the value. -/
theorem run_tokens : ∀ (v : Value) (stack : List Frame),
    (value stack).run v.tokens = some (complete v stack)
  | .array [], _ => rfl
  | .array (v :: vs), stack => by
    have hfirst : (afterLbracket stack).run v.tokens = some (afterItem [v] stack) :=
      (run_afterLbracket v stack).trans (run_tokens v _)
    have hrest := run_tokensOfItems vs [v] stack
    rw [Value.tokens, Value.tokensOfItems, separated, List.cons_append, run_cons]
    show (afterLbracket stack).run _ = _
    rw [List.append_assoc, run_append hfirst, run_append hrest]
    -- The closing bracket puts the items back in order.
    show some (complete (.array (vs.reverse ++ [v]).reverse) stack) = _
    rw [List.reverse_append, List.reverse_reverse]
    rfl
  | .object [], _ => rfl
  | .object ((n, v) :: rest), stack => by
    have hfirst : (afterLbrace stack).run (.text n :: .colon :: v.tokens) =
        some (afterMember [(n, v)] stack) :=
      run_tokens v (.object [] n :: stack)
    have hrest := run_tokensOfMembers rest [(n, v)] stack
    rw [Value.tokens, Value.tokensOfMembers, separated, List.cons_append, run_cons]
    show (afterLbrace stack).run _ = _
    rw [List.append_assoc, run_append hfirst, run_append hrest]
    show some (complete (.object (rest.reverse ++ [(n, v)]).reverse) stack) = _
    rw [List.reverse_append, List.reverse_reverse]
    rfl
  | .string _, _ | .null, _ | .bool _, _ | .number _ _, _ => rfl

theorem run_tokensOfItems : ∀ (vs items : List Value) (stack : List Frame),
    (afterItem items stack).run ((Value.tokensOfItems vs).flatMap (.comma :: ·)) =
      some (afterItem (vs.reverse ++ items) stack)
  | [], _, _ => rfl
  | v :: vs, items, stack => by
    have hone : (afterItem items stack).run (.comma :: v.tokens) =
        some (afterItem (v :: items) stack) :=
      run_tokens v (.array items :: stack)
    rw [Value.tokensOfItems, List.flatMap_cons, run_append hone, run_tokensOfItems vs,
      List.reverse_cons, List.append_assoc]
    rfl

theorem run_tokensOfMembers :
    ∀ (rest members : List (String × Value)) (stack : List Frame),
      (afterMember members stack).run ((Value.tokensOfMembers rest).flatMap (.comma :: ·)) =
        some (afterMember (rest.reverse ++ members) stack)
  | [], _, _ => rfl
  | (n, v) :: rest, members, stack => by
    have hone : (afterMember members stack).run (.comma :: .text n :: .colon :: v.tokens) =
        some (afterMember ((n, v) :: members) stack) :=
      run_tokens v (.object members n :: stack)
    rw [Value.tokensOfMembers, List.flatMap_cons, run_append hone, run_tokensOfMembers rest,
      List.reverse_cons, List.append_assoc]
    rfl

end

end State

/-- A text that can be cut into the tokens of a value says that value. -/
theorem read_of_tokens {text : String} {v : Value} (h : tokens? text.toList = some v.tokens) :
    read text = some v := by
  rw [read, h, Option.bind_some, ofTokens?, State.run_tokens]
  rfl

example : (read "[1, -0.5e+3,\n\"\\ud83d\\ude00\\/\", \x7b\"a\" :null\x7d ] ").isSome = true := by
  decide +kernel

/-- Texts that are almost JSON. -/
example : ["", "[1,]", "[1 2]", "1 2", "\x7b1: 2\x7d", "01", "+1", "1.", "1e", "nul", "\"a",
    "\"\\x\"", "\"\\ud83d\"", "\"\n\""].all (fun text => (read text).isNone) = true := by
  decide +kernel

end Json

end IcFront
