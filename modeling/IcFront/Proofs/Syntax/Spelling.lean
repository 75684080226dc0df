import IcFront.Proofs.Syntax.Marks
import Mathlib.Data.List.Basic

/-!
# Marks written as text

`Mark.spelling` writes a mark, and `Program.source` writes a program: its marks with a
space between two. `lexeme?_spelling` says that a mark is read back from its text where
it is expected and a space or the end follows.

That needs the mark to be *writable*: a name must look like one and be no reserved
word, and an integer must not be too long. Texts of string literals may be anything
but must hold no backslash (`Mark.Plain`): in the text of a literal no two backslashes
stand in a row, so a backslash cannot be written at all.
-/

namespace IcFront

/-! ## Writing -/

/-- A character as it stands in a string literal. -/
def escapeChar (c : Char) : List Char :=
  if c = '\n' then ['\\', 'n']
  else if c = '\t' then ['\\', 't']
  else if c = '"' ∨ c = '\\' then ['\\', c]
  else [c]

/-- A string literal that stands for a text, quotes and escapes included. -/
def quotation (value : String) : String :=
  String.ofList ('"' :: value.toList.flatMap escapeChar ++ ['"'])

/-- A mark as it is written. -/
def Mark.spelling : Mark → String
  | keyword k => k.text
  | sign s => s.text
  | className t | name t => t
  | integer n => toString n
  | text value => quotation value
  | brackets => "[]"

/-- A program as it is written: its marks with a space between two. -/
def Program.source (p : Program Expr) : String := " ".intercalate (p.marks.map Mark.spelling)

namespace Mark

/-- A mark that has a text of its kind: a name looks like one and is no reserved word,
and an integer has no more digits than are read. -/
def Writable : Mark → Prop
  | className t => ∃ c cs, t.toList = c :: cs ∧ isUpper c = true ∧ ∀ d ∈ cs, isWordChar d = true
  | name t =>
    Keyword.ofText? t = none ∧
      ∃ c cs, t.toList = c :: cs ∧ isLower c = true ∧ ∀ d ∈ cs, isWordChar d = true
  | integer n => (toString n).length ≤ maxDigits
  | _ => True

/-- A mark that is no string literal with a backslash. -/
def Plain : Mark → Prop
  | text value => '\\' ∉ value.toList
  | _ => True

end Mark

/-! ## Reserved words and signs -/

/-- What follows a mark in a text: nothing, or a space first. -/
def Parted (rest : List Char) : Prop := rest = [] ∨ ∃ cs, rest = ' ' :: cs

/-- A word without spaces that starts a text ends before the first space. -/
theorem prefix_of_parted {word cs rest : List Char} (hrest : Parted rest)
    (hword : ' ' ∉ word) (h : word <+: cs ++ rest) : word <+: cs := by
  induction cs generalizing word with
  | nil =>
    rcases hrest with rfl | ⟨cs, rfl⟩
    · exact h
    · cases word with
      | nil => exact List.nil_prefix
      | cons c word =>
        obtain ⟨rfl, -⟩ := List.cons_prefix_cons.1 h
        simp at hword
  | cons c cs ih =>
    cases word with
    | nil => exact List.nil_prefix
    | cons d word =>
      obtain ⟨rfl, hrest⟩ := List.cons_prefix_cons.1 h
      exact List.cons_prefix_cons.2 ⟨rfl, ih (fun hd => hword (List.mem_cons_of_mem _ hd)) hrest⟩

namespace Keyword

theorem mem_all (k : Keyword) : k ∈ all := by cases k <;> decide

/-- Reserved words are written in lower-case letters. -/
theorem isLower_text (k : Keyword) : ∀ c ∈ k.text.toList, isLower c = true := by
  have hall : k.text.toList.all isLower = true := by cases k <;> decide
  exact List.all_eq_true.1 hall

theorem ofText?_text (k : Keyword) : ofText? k.text = some k := by cases k <;> decide

/-- No reserved word starts another. -/
theorem eq_of_prefix {k k' : Keyword} (h : k'.text.toList <+: k.text.toList) : k' = k := by
  have hall : ∀ k ∈ all, ∀ k' ∈ all, k'.text.toList.isPrefixOf k.text.toList = true → k' = k := by
    decide +kernel
  exact hall k k.mem_all k' k'.mem_all (List.isPrefixOf_iff_prefix.2 h)

end Keyword

namespace Sign

theorem mem_all (s : Sign) : s ∈ all := by cases s <;> decide

/-- The signs that are looked for before a sign do not start it. -/
theorem first_of_prefixes (s : Sign) : ∃ before after, all = before ++ s :: after ∧
    ∀ s' ∈ before, s'.text.toList.isPrefixOf s.text.toList = false := by
  have hall : ∀ s ∈ all, all = all.takeWhile (· ≠ s) ++ s :: (all.dropWhile (· ≠ s)).tail ∧
      ∀ s' ∈ all.takeWhile (· ≠ s), s'.text.toList.isPrefixOf s.text.toList = false := by
    decide +kernel
  exact ⟨_, _, hall s s.mem_all⟩

theorem space_not_mem_text (s : Sign) : ' ' ∉ s.text.toList := by cases s <;> decide

end Sign

/-! ## Letters and digits -/

theorem isUpper_of_isLower {c : Char} (h : isLower c = true) : isUpper c = false := by
  simp only [isLower, isUpper, Bool.and_eq_true, Bool.and_eq_false_iff, decide_eq_true_eq,
    decide_eq_false_iff_not, Char.le_def, UInt32.le_iff_toNat_le] at *
  right
  have : 'Z'.val.toNat < 'a'.val.toNat := by decide
  omega

theorem isLetter_of_isDigit {c : Char} (h : isDigit c = true) :
    isUpper c = false ∧ isLower c = false := by
  simp only [isLower, isUpper, isDigit, Bool.and_eq_true, Bool.and_eq_false_iff,
    decide_eq_true_eq, decide_eq_false_iff_not, Char.le_def, UInt32.le_iff_toNat_le] at *
  have : '9'.val.toNat < 'A'.val.toNat := by decide
  have : 'A'.val.toNat < 'a'.val.toNat := by decide
  omega

/-- Numbers are written in digits. -/
theorem isDigit_toString (n : Nat) : ∀ c ∈ (toString n).toList, isDigit c = true := by
  intro c hc
  rw [Nat.toString_eq_ofList_toDigits, String.toList_ofList] at hc
  have h := Nat.isDigit_of_mem_toDigits (by decide) (by decide) hc
  simpa [Char.isDigit, isDigit, Char.le_def] using h

/-- The digits of a number say which it is. -/
theorem digitsValue_toString (n : Nat) : digitsValue (toString n).toList = n := by
  rw [Nat.toString_eq_ofList_toDigits, String.toList_ofList]
  exact Nat.ofDigitChars_ten_toDigits

/-! ## String literals -/

theorem unescape_cons {c : Char} {cs : List Char} (h : c ≠ '\\') :
    unescape (c :: cs) = c :: unescape cs := by
  cases cs with
  | nil => rfl
  | cons d cs => simp [unescape, h]

theorem unescape_escapeChar (c : Char) (cs : List Char) :
    unescape (escapeChar c ++ cs) = c :: unescape cs := by
  unfold escapeChar
  split
  · next h => simp [unescape, escaped, h]
  · split
    · next h => simp [unescape, escaped, h]
    · split
      · next h => rcases h with rfl | rfl <;> simp [unescape, escaped]
      · next h => exact unescape_cons fun hc => h (.inr hc)

theorem unescape_escape (cs : List Char) : unescape (cs.flatMap escapeChar) = cs := by
  induction cs with
  | nil => rfl
  | cons c cs ih => rw [List.flatMap_cons, unescape_escapeChar, ih]

/-- A text is read back from the literal that stands for it. -/
theorem quotedValue_quotation (value : String) : quotedValue (quotation value) = value := by
  rw [quotedValue, quotation, String.toList_ofList, List.cons_append, List.drop_one,
    List.tail_cons, List.dropLast_concat, unescape_escape, String.ofList_toList]

/-- What may stand between the quotes of a string literal: characters that stand for
themselves, and escapes. No backslash is escaped. -/
inductive LiteralBody : List Char → Prop
  | nil : LiteralBody []
  | escape {d : Char} {body : List Char} (hd : d = '"' ∨ d = 'n' ∨ d = 't')
    (hbody : LiteralBody body) : LiteralBody ('\\' :: d :: body)
  | plain {c : Char} {body : List Char} (hquote : c ≠ '"') (hnewline : c ≠ '\n')
    (hslash : c ≠ '\\') (hbody : LiteralBody body) : LiteralBody (c :: body)

/-- A literal does not end before its body does. -/
theorem LiteralBody.stringLiteral?_append {body : List Char} (h : LiteralBody body)
    (rest : List Char) :
    stringLiteral? (body ++ rest) = (stringLiteral? rest).map (body.length + ·) := by
  induction h with
  | nil => simp
  | @escape d body hd _ ih =>
    have hlength : (fun n => body.length + n + 2) = (('\\' :: d :: body).length + ·) := by
      funext n
      simp only [List.length_cons]
      omega
    rw [List.cons_append, List.cons_append, stringLiteral?.eq_def]
    simp [or_assoc, hd, ih, Function.comp_def, hlength]
  | @plain c body hquote hnewline hslash _ ih =>
    have hlength : (fun n => body.length + n + 1) = ((c :: body).length + ·) := by
      funext n
      simp only [List.length_cons]
      omega
    rw [List.cons_append, stringLiteral?.eq_def]
    simp [hquote, hnewline, hslash, ih, Function.comp_def, hlength]

theorem literalBody_escape {value : List Char} (h : '\\' ∉ value) :
    LiteralBody (value.flatMap escapeChar) := by
  induction value with
  | nil => exact .nil
  | cons c value ih =>
    rw [List.mem_cons, not_or] at h
    have hbody := ih h.2
    have hslash : c ≠ '\\' := fun heq => h.1 heq.symm
    rw [List.flatMap_cons, escapeChar]
    split
    next => exact .escape (.inr (.inl rfl)) hbody
    next hnewline =>
      split
      next => exact .escape (.inr (.inr rfl)) hbody
      next =>
        split
        next hc => exact .escape (.inl (hc.resolve_right hslash)) hbody
        next hc => exact .plain (fun heq => hc (.inl heq)) hnewline hslash hbody

/-! ## Cutting marks off a text -/

section Lexemes

variable {expected : Expectation} {rest : List Char}

theorem isPrefixOf_parted {word cs : List Char} (hrest : Parted rest) (hword : ' ' ∉ word) :
    word.isPrefixOf (cs ++ rest) = word.isPrefixOf cs := by
  rw [Bool.eq_iff_iff, List.isPrefixOf_iff_prefix, List.isPrefixOf_iff_prefix]
  exact ⟨prefix_of_parted hrest hword, fun h => h.trans (List.prefix_append ..)⟩

theorem takeWhile_parted {p : Char → Bool} {cs : List Char} (hrest : Parted rest)
    (hcs : ∀ c ∈ cs, p c = true) (hspace : p ' ' = false) : (cs ++ rest).takeWhile p = cs := by
  rw [List.takeWhile_append_of_pos hcs]
  rcases hrest with rfl | ⟨cs', rfl⟩ <;> simp [hspace]

theorem space_not_mem {p : Char → Bool} {cs : List Char} (hcs : ∀ c ∈ cs, p c = true)
    (hspace : p ' ' = false) : ' ' ∉ cs := by
  intro h
  rw [hcs _ h] at hspace
  cases hspace

theorem signLexeme?_text (s : Sign) (he : expected (.sign s) = true) (hrest : Parted rest) :
    signLexeme? expected (s.text.toList ++ rest) = some ⟨.sign s, s.text.length⟩ := by
  obtain ⟨before, after, hall, hbefore⟩ := s.first_of_prefixes
  have hfind : Sign.all.find? (fun s' => expected (.sign s') &&
      s'.text.toList.isPrefixOf (s.text.toList ++ rest)) = some s := by
    rw [List.find?_eq_some_iff_append]
    refine ⟨?_, before, after, hall, fun s' hs' => ?_⟩
    · simp [he]
    · rw [isPrefixOf_parted hrest s'.space_not_mem_text, hbefore s' hs', Bool.and_false]
      rfl
  rw [signLexeme?, hfind]
  rfl

theorem keywordLexeme?_text (k : Keyword) (he : expected (.keyword k) = true)
    (hrest : Parted rest) :
    keywordLexeme? expected (k.text.toList ++ rest) = some ⟨.keyword k, k.text.length⟩ := by
  have hspace (k : Keyword) : ' ' ∉ k.text.toList := space_not_mem k.isLower_text (by decide)
  have hfind : Keyword.all.find? (fun k' => expected (.keyword k') &&
      k'.text.toList.isPrefixOf (k.text.toList ++ rest)) = some k := by
    cases hf : Keyword.all.find? (fun k' => expected (.keyword k') &&
        k'.text.toList.isPrefixOf (k.text.toList ++ rest)) with
    | none =>
      have := List.find?_eq_none.1 hf k k.mem_all
      simp [he] at this
    | some k' =>
      have hk' := List.find?_some hf
      rw [isPrefixOf_parted hrest (hspace k'), Bool.and_eq_true,
        List.isPrefixOf_iff_prefix] at hk'
      rw [Keyword.eq_of_prefix hk'.2]
  rw [keywordLexeme?, hfind]
  rfl

theorem wordLexeme_text (k : Keyword) (he : expected (.keyword k) = true)
    (hrest : Parted rest) :
    wordLexeme expected (k.text.toList ++ rest) = ⟨.keyword k, k.text.length⟩ := by
  have hword : ∀ c ∈ k.text.toList, isWordChar c = true := fun c hc => by
    simp [isWordChar, k.isLower_text c hc]
  rw [wordLexeme, takeWhile_parted hrest hword (by decide), String.ofList_toList,
    Keyword.ofText?_text, String.length_toList]
  simp [he]

/-- A string literal without backslashes in its text ends at its closing quote. -/
theorem stringLiteral?_text (rest : List Char) {value : List Char} (h : '\\' ∉ value) :
    stringLiteral? (value.flatMap escapeChar ++ '"' :: rest) =
      some ((value.flatMap escapeChar).length + 1) := by
  rw [(literalBody_escape h).stringLiteral?_append, stringLiteral?.eq_def]
  rfl

/-- The characters that no sign starts with: they start a name, a number or a string. -/
def isOpening (c : Char) : Bool := c = '"' || isUpper c || isLower c || isDigit c

theorem Sign.text_eq_cons (s : Sign) : ∃ c cs, s.text.toList = c :: cs ∧ isOpening c = false ∧
    (c = '[' → s = .lbracket) := by
  cases s <;> exact ⟨_, _, rfl, by decide, by decide⟩

theorem lexeme?_sign (s : Sign) (he : expected (.sign s) = true) (hrest : Parted rest)
    (hb : s = .lbracket → expected .brackets = true → emptyBrackets? rest = none) :
    lexeme? expected (s.text.toList ++ rest) = some ⟨.sign s, s.text.length⟩ := by
  have hsign := signLexeme?_text s he hrest
  obtain ⟨c, cs, hs, hc, hbracket⟩ := s.text_eq_cons
  rw [hs, List.cons_append] at hsign ⊢
  simp only [isOpening, Bool.or_eq_false_iff, decide_eq_false_iff_not] at hc
  obtain ⟨⟨⟨hquote, hupper⟩, hlower⟩, hdigit⟩ := hc
  simp only [lexeme?, hquote, hupper, hlower, hdigit, if_false, Bool.false_eq_true]
  split
  · next h =>
    simp only [Bool.and_eq_true, decide_eq_true_eq] at h
    obtain rfl := hbracket h.1
    cases hs
    simp only [List.nil_append, hb rfl h.2]
    exact hsign
  · exact hsign

/-- A mark is cut off a text as it was written, where it is expected. After an opening
bracket there must be no closing one if the two would make empty brackets. -/
theorem lexeme?_spelling {m : Mark} (hw : m.Writable) (hp : m.Plain)
    (he : expected m.terminal = true) (hrest : Parted rest)
    (hb : m = .sign .lbracket → expected .brackets = true → emptyBrackets? rest = none) :
    lexeme? expected (m.spelling.toList ++ rest) = some ⟨m.terminal, m.spelling.length⟩ := by
  -- the first character of the spelling leads to the branch for its sort of token; what is after
  -- the mark starts with none of its characters, so that the token ends with it
  cases m with
  | keyword k =>
    have hkey := keywordLexeme?_text k he hrest
    have hword := wordLexeme_text k he hrest
    obtain ⟨c, cs, hk, hlower⟩ : ∃ c cs, k.text.toList = c :: cs ∧ isLower c = true := by
      cases k <;> exact ⟨_, _, rfl, by decide⟩
    have hquote : c ≠ '"' := by rintro rfl; cases hlower
    have hupper := isUpper_of_isLower hlower
    simp only [Mark.spelling, Mark.terminal]
    rw [hk, List.cons_append] at hkey hword ⊢
    simp only [lexeme?, hquote, hupper, hlower, if_true, if_false, Bool.false_eq_true, hkey,
      hword, ite_self]
  | sign s => exact lexeme?_sign s he hrest (fun h => hb (by rw [h]))
  | className t =>
    obtain ⟨c, cs, ht, hupper, hcs⟩ := hw
    have hquote : c ≠ '"' := by rintro rfl; cases hupper
    have hword : ∀ d ∈ c :: cs, isWordChar d = true := by
      simpa [isWordChar, hupper] using hcs
    have htake := takeWhile_parted hrest hword (by decide)
    have hlength : (c :: cs).length = t.length := by rw [← ht, String.length_toList]
    simp only [Mark.spelling, Mark.terminal]
    rw [ht]
    rw [List.cons_append] at htake ⊢
    simp only [lexeme?, hquote, hupper, if_true, if_false, htake, hlength]
    exact if_pos he
  | name t =>
    obtain ⟨hkey, c, cs, ht, hlower, hcs⟩ := hw
    have hquote : c ≠ '"' := by rintro rfl; cases hlower
    have hupper := isUpper_of_isLower hlower
    have hword : ∀ d ∈ c :: cs, isWordChar d = true := by
      simpa [isWordChar, hlower] using hcs
    have htake := takeWhile_parted hrest hword (by decide)
    have hlength : (c :: cs).length = t.length := by rw [← ht, String.length_toList]
    simp only [Mark.spelling, Mark.terminal]
    rw [ht]
    rw [List.cons_append] at htake ⊢
    simp only [lexeme?, hquote, hupper, hlower, if_true, if_false, Bool.false_eq_true,
      show expected .name = true from he, wordLexeme, htake, hlength]
    rw [← ht, String.ofList_toList, hkey]
  | integer n =>
    obtain ⟨c, cs, hn⟩ : ∃ c cs, (toString n).toList = c :: cs := by
      cases h : (toString n).toList with
      | nil =>
        rw [Nat.toString_eq_ofList_toDigits, String.toList_ofList] at h
        exact absurd h Nat.toDigits_ne_nil
      | cons c cs => exact ⟨c, cs, rfl⟩
    have hdigits := isDigit_toString n
    rw [hn] at hdigits
    have hdigit := hdigits c List.mem_cons_self
    obtain ⟨hupper, hlower⟩ := isLetter_of_isDigit hdigit
    have hquote : c ≠ '"' := by rintro rfl; cases hdigit
    have htake := takeWhile_parted hrest hdigits (by decide)
    have hlength : (c :: cs).length = (toString n).length := by rw [← hn, String.length_toList]
    simp only [Mark.spelling, Mark.terminal]
    rw [hn]
    rw [List.cons_append] at htake ⊢
    simp only [lexeme?, hquote, hupper, hlower, hdigit, if_true, if_false, Bool.false_eq_true,
      show expected .integer = true from he, htake, hlength]
  | text value =>
    have hbody := stringLiteral?_text rest hp
    have hlength : (quotation value).length = (value.toList.flatMap escapeChar).length + 2 := by
      rw [← String.length_toList, quotation, String.toList_ofList, List.length_append]
      rfl
    simp only [Mark.spelling, Mark.terminal, hlength]
    rw [quotation, String.toList_ofList, List.cons_append, List.cons_append, List.append_assoc,
      List.singleton_append]
    simp only [lexeme?, if_true, show expected .text = true from he, hbody, Option.map_some]
  | brackets =>
    have hempty : emptyBrackets? (']' :: rest) = some 1 := by
      simp [emptyBrackets?, show isBlank ']' = false by decide]
    show lexeme? expected ('[' :: ']' :: rest) = _
    simp [lexeme?, show isUpper '[' = false by decide, show isLower '[' = false by decide,
      show isDigit '[' = false by decide, show expected .brackets = true from he, hempty]
    exact ⟨rfl, rfl⟩

end Lexemes

/-! ## What stands between marks -/

theorem isBlank_of_isWordChar {c : Char} (h : isWordChar c = true) : isBlank c = false := by
  have hbounds : 0x30 ≤ c.toNat ∧ c.toNat ≤ 0x7a := by
    simp only [isWordChar, isUpper, isLower, isDigit, Bool.or_eq_true, Bool.and_eq_true,
      decide_eq_true_eq, Char.le_def, UInt32.le_iff_toNat_le] at h
    rcases h with ((h | h) | h) | rfl
    · exact ⟨Nat.le_trans (by decide) h.1, Nat.le_trans h.2 (by decide)⟩
    · exact ⟨Nat.le_trans (by decide) h.1, Nat.le_trans h.2 (by decide)⟩
    · exact ⟨Nat.le_trans (by decide) h.1, Nat.le_trans h.2 (by decide)⟩
    · decide
  simp only [isBlank, Bool.or_eq_false_iff, Bool.and_eq_false_iff, decide_eq_false_iff_not]
  omega

/-- What a mark is written as starts neither with a blank nor with a comment, and not
with a closing bracket unless it is one. -/
theorem Mark.spelling_eq_cons {m : Mark} (hw : m.Writable) : ∃ c cs,
    m.spelling.toList = c :: cs ∧ isBlank c = false ∧ (c = '/' → cs = []) ∧
      (c = ']' → m = .sign .rbracket) := by
  have hletter {c : Char} {cs : List Char} (h : isWordChar c = true) :
      isBlank c = false ∧ (c = '/' → cs = []) ∧ (c = ']' → m = .sign .rbracket) :=
    ⟨isBlank_of_isWordChar h, (by rintro rfl; cases h), (by rintro rfl; cases h)⟩
  cases m with
  | keyword k => cases k <;> exact ⟨_, _, rfl, by decide, by decide, by decide⟩
  | sign s => cases s <;> exact ⟨_, _, rfl, by decide, by decide, by decide⟩
  | className t =>
    obtain ⟨c, cs, ht, hc, -⟩ := hw
    exact ⟨c, cs, ht, hletter (by simp [isWordChar, hc])⟩
  | name t =>
    obtain ⟨-, c, cs, ht, hc, -⟩ := hw
    exact ⟨c, cs, ht, hletter (by simp [isWordChar, hc])⟩
  | integer n =>
    cases h : (toString n).toList with
    | nil =>
      rw [Nat.toString_eq_ofList_toDigits, String.toList_ofList] at h
      exact absurd h Nat.toDigits_ne_nil
    | cons c cs =>
      have hdigit := isDigit_toString n c (by rw [h]; exact List.mem_cons_self)
      exact ⟨c, cs, h, hletter (by simp [isWordChar, hdigit])⟩
  | text value =>
    exact ⟨'"', value.toList.flatMap escapeChar ++ ['"'], String.toList_ofList, by decide,
      fun h => absurd h (by decide), fun h => absurd h (by decide)⟩
  | brackets => exact ⟨'[', [']'], rfl, by decide, by decide, by decide⟩

/-- No layout stands before a mark that starts a text. -/
theorem layout_spelling {m : Mark} {rest : List Char} (hw : m.Writable) (hrest : Parted rest) :
    layout (m.spelling.toList ++ rest) = 0 := by
  obtain ⟨c, cs, hm, hblank, hslash, -⟩ := Mark.spelling_eq_cons hw
  have hlayout : isLayout c = false := by
    cases hc : isLayout c with
    | false => rfl
    | true => rw [isBlank_of_isLayout hc] at hblank; cases hblank
  rw [hm, List.cons_append, layout.eq_def]
  split
  · next cs' h =>
    obtain ⟨rfl, h⟩ := List.cons.inj h
    rw [hslash rfl, List.nil_append] at h
    rcases hrest with rfl | ⟨cs, rfl⟩ <;> cases h
  · next cs' h =>
    obtain ⟨rfl, h⟩ := List.cons.inj h
    rw [hslash rfl, List.nil_append] at h
    rcases hrest with rfl | ⟨cs, rfl⟩ <;> cases h
  · next d rest' _ _ h =>
    obtain ⟨rfl, -⟩ := List.cons.inj h
    simp [hlayout]
  · next h => cases h

/-- A space before a mark is all the layout there is. -/
theorem layout_space {cs : List Char} : layout (' ' :: cs) = 1 + layout cs := by
  rw [layout.eq_def]
  simp [show isLayout ' ' = true by decide]

/-- No mark is written over two lines. -/
theorem newline_not_mem_spelling {m : Mark} (hw : m.Writable) : '\n' ∉ m.spelling.toList := by
  have hletters {cs : List Char} (h : ∀ c ∈ cs, isWordChar c = true) : '\n' ∉ cs := by
    intro hc
    cases h _ hc
  cases m with
  | keyword k => cases k <;> decide
  | sign s => cases s <;> decide
  | className t =>
    obtain ⟨c, cs, ht, hc, hcs⟩ := hw
    rw [Mark.spelling, ht]
    exact hletters (by simpa [isWordChar, hc] using hcs)
  | name t =>
    obtain ⟨-, c, cs, ht, hc, hcs⟩ := hw
    rw [Mark.spelling, ht]
    exact hletters (by simpa [isWordChar, hc] using hcs)
  | integer n => exact hletters fun c hc => by simp [isWordChar, isDigit_toString n c hc]
  | text value =>
    have hescape (c : Char) : '\n' ∉ escapeChar c := by
      unfold escapeChar
      split
      · decide
      · split
        · decide
        · split
          · next hn _ hq => rcases hq with rfl | rfl <;> decide
          · next hn _ _ => simpa using fun h => hn h.symm
    rw [Mark.spelling, quotation, String.toList_ofList]
    simpa using fun c _ => hescape c
  | brackets => decide

end IcFront
