import IcFront.Grammar.Expectation
import IcFront.Text.Blank

/-!
# Lexemes

How a text is cut into tokens. `layout` measures the blanks and comments that
stand before a token, and `lexeme?` says which of the expected terminals stands
at the start of a text and how many characters it takes.

Where a name is expected, a run of letters, digits and underscores is one token,
and it is a reserved word only if the whole run is one. Where no name is
expected, a reserved word is found by its letters alone, whatever follows them.

`lexeme?_bounds` says that a lexeme takes at least one character and no more than
there are.
-/

namespace IcFront

/-- The length of a comment after `/*`, its closing `*/` included; none if it
is not closed. -/
def blockComment? : List Char → Option Nat
  | '*' :: '/' :: _ => some 2
  | _ :: rest => (blockComment? rest).map (· + 1)
  | [] => none

/-- The length of a comment after `//`, up to the end of the line. -/
def lineComment (cs : List Char) : Nat := (cs.takeWhile (· ≠ '\n')).length

/-- The number of characters of layout at the start of a text: blanks, line
comments, and block comments that are closed. -/
def layout (cs : List Char) : Nat :=
  match cs with
  | '/' :: '/' :: rest => 2 + lineComment rest + layout (rest.drop (lineComment rest))
  | '/' :: '*' :: rest =>
    match blockComment? rest with
    | some n => 2 + n + layout (rest.drop n)
    | none => 0
  | c :: rest => if isLayout c then 1 + layout rest else 0
  | [] => 0
termination_by cs.length
decreasing_by all_goals simp_wf <;> omega

/-- Upper-case letters. -/
def isUpper (c : Char) : Bool := 'A' ≤ c && c ≤ 'Z'

/-- Lower-case letters. -/
def isLower (c : Char) : Bool := 'a' ≤ c && c ≤ 'z'

/-- Decimal digits. -/
def isDigit (c : Char) : Bool := '0' ≤ c && c ≤ '9'

/-- The characters of names. -/
def isWordChar (c : Char) : Bool := isUpper c || isLower c || isDigit c || c = '_'

/-- The length of a string literal after its opening quote, the closing quote
included. A backslash must stand before a quote, an `n` or a `t`, so no literal
holds two backslashes in a row, and a literal ends on the line it starts on. -/
def stringLiteral? : List Char → Option Nat
  | [] => none
  | c :: rest =>
    if c = '"' then some 1
    else if c = '\n' then none
    else if c = '\\' then
      match rest with
      | d :: rest' =>
        if d = '"' || d = 'n' || d = 't' then (stringLiteral? rest').map (· + 2)
        else none
      | [] => none
    else (stringLiteral? rest).map (· + 1)

/-- The length of empty brackets after the opening one. -/
def emptyBrackets? (cs : List Char) : Option Nat :=
  let blanks := (cs.takeWhile isBlank).length
  if (cs.drop blanks).head? = some ']' then some (blanks + 1) else none

/-- A terminal and the number of characters it takes. -/
structure Lexeme where
  terminal : Terminal
  length : Nat
  deriving DecidableEq, Repr

/-- The expected sign at the start of a text, the longest if there are two. -/
def signLexeme? (expected : Expectation) (cs : List Char) : Option Lexeme :=
  (Sign.all.find? fun s => expected (.sign s) && s.text.toList.isPrefixOf cs).map fun s =>
    ⟨.sign s, s.text.length⟩

/-- The name or reserved word at the start of a text, where a name is expected. -/
def wordLexeme (expected : Expectation) (cs : List Char) : Lexeme :=
  let word := cs.takeWhile isWordChar
  match Keyword.ofText? (String.ofList word) with
  | some k => ⟨if expected (.keyword k) then .keyword k else .name, word.length⟩
  | none => ⟨.name, word.length⟩

/-- The reserved word at the start of a text, where no name is expected. -/
def keywordLexeme? (expected : Expectation) (cs : List Char) : Option Lexeme :=
  (Keyword.all.find? fun k => expected (.keyword k) && k.text.toList.isPrefixOf cs).map fun k =>
    ⟨.keyword k, k.text.length⟩

/-- The expected terminal at the start of a text and its length; none if no
expected terminal stands there. -/
def lexeme? (expected : Expectation) (cs : List Char) : Option Lexeme :=
  match cs with
  | [] => none
  | c :: rest =>
    if c = '"' then
      if expected .text then (stringLiteral? rest).map fun n => ⟨.text, n + 1⟩ else none
    else if isUpper c then
      if expected .className then some ⟨.className, (cs.takeWhile isWordChar).length⟩ else none
    else if isLower c then
      if expected .name then some (wordLexeme expected cs) else keywordLexeme? expected cs
    else if isDigit c then
      if expected .integer then some ⟨.integer, (cs.takeWhile isDigit).length⟩ else none
    else if c = '[' && expected .brackets then
      match emptyBrackets? rest with
      | some n => some ⟨.brackets, n + 1⟩
      | none => signLexeme? expected cs
    else signLexeme? expected cs

/-! ## Bounds -/

theorem stringLiteral?_bounds {cs : List Char} {n : Nat} (h : stringLiteral? cs = some n) :
    n ≤ cs.length := by
  fun_induction stringLiteral? cs generalizing n with
  | case1 => simp at h
  | case2 => simp at h; simp; omega
  | case3 => simp at h
  | case4 rest d _ _ _ ih =>
    obtain ⟨m, hm, rfl⟩ := Option.map_eq_some_iff.1 h
    have := ih hm
    simp only [List.length_cons]
    omega
  | case5 => simp at h
  | case6 => simp at h
  | case7 c rest _ _ _ ih =>
    obtain ⟨m, hm, rfl⟩ := Option.map_eq_some_iff.1 h
    have := ih hm
    simp only [List.length_cons]
    omega

theorem emptyBrackets?_bounds {cs : List Char} {n : Nat} (h : emptyBrackets? cs = some n) :
    n ≤ cs.length := by
  simp only [emptyBrackets?] at h
  split at h
  · next hb =>
    obtain rfl := Option.some.inj h
    have : 0 < (cs.drop (cs.takeWhile isBlank).length).length := by
      cases hd : cs.drop (cs.takeWhile isBlank).length with
      | nil => simp [hd] at hb
      | cons => simp
    simp only [List.length_drop] at this
    omega
  · simp at h

private theorem takeWhile_bounds {p : Char → Bool} {c : Char} {rest : List Char}
    (h : p c = true) :
    0 < ((c :: rest).takeWhile p).length ∧
      ((c :: rest).takeWhile p).length ≤ (c :: rest).length := by
  have hle : (rest.takeWhile p).length ≤ rest.length := (List.takeWhile_sublist p).length_le
  simp only [List.takeWhile_cons, h, if_true, List.length_cons]
  omega

private theorem length_le_of_isPrefixOf {s : String} {cs : List Char}
    (h : s.toList.isPrefixOf cs = true) : s.length ≤ cs.length := by
  rw [← String.length_toList]
  exact (List.isPrefixOf_iff_prefix.1 h).length_le

theorem signLexeme?_bounds {expected : Expectation} {cs : List Char} {l : Lexeme}
    (h : signLexeme? expected cs = some l) : 0 < l.length ∧ l.length ≤ cs.length := by
  obtain ⟨s, hs, rfl⟩ := Option.map_eq_some_iff.1 h
  have hp := List.find?_some hs
  simp only [Bool.and_eq_true] at hp
  refine ⟨?_, length_le_of_isPrefixOf hp.2⟩
  cases s <;> decide

theorem keywordLexeme?_bounds {expected : Expectation} {cs : List Char} {l : Lexeme}
    (h : keywordLexeme? expected cs = some l) : 0 < l.length ∧ l.length ≤ cs.length := by
  obtain ⟨k, hk, rfl⟩ := Option.map_eq_some_iff.1 h
  have hp := List.find?_some hk
  simp only [Bool.and_eq_true] at hp
  refine ⟨?_, length_le_of_isPrefixOf hp.2⟩
  cases k <;> decide

theorem wordLexeme_length (expected : Expectation) (cs : List Char) :
    (wordLexeme expected cs).length = (cs.takeWhile isWordChar).length := by
  simp only [wordLexeme]
  split <;> rfl

/-- A lexeme takes at least one character and no more than there are. -/
theorem lexeme?_bounds {expected : Expectation} {cs : List Char} {l : Lexeme}
    (h : lexeme? expected cs = some l) : 0 < l.length ∧ l.length ≤ cs.length := by
  cases cs with
  | nil => simp [lexeme?] at h
  | cons c rest =>
    simp only [lexeme?] at h
    split at h
    · split at h
      · obtain ⟨n, hn, rfl⟩ := Option.map_eq_some_iff.1 h
        have := stringLiteral?_bounds hn
        simp only [List.length_cons]
        omega
      · simp at h
    · split at h
      · next hu =>
        split at h
        · obtain rfl := Option.some.inj h
          exact takeWhile_bounds (by simp [isWordChar, hu])
        · simp at h
      · split at h
        · next hl =>
          split at h
          · obtain rfl := Option.some.inj h
            rw [wordLexeme_length]
            exact takeWhile_bounds (by simp [isWordChar, hl])
          · exact keywordLexeme?_bounds h
        · split at h
          · next hd =>
            split at h
            · obtain rfl := Option.some.inj h
              exact takeWhile_bounds hd
            · simp at h
          · split at h
            · split at h
              · next n hn =>
                obtain rfl := Option.some.inj h
                have := emptyBrackets?_bounds hn
                simp only [List.length_cons]
                omega
              · exact signLexeme?_bounds h
            · exact signLexeme?_bounds h

end IcFront
