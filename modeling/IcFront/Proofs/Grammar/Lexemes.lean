import IcFront.Proofs.Syntax.Spelling

/-!
# What a text starts with

The first character of a text says of which kind its first token is. `LexemeAt` lists the
kinds, each with what must be looked for and what is read then; it holds of what `lexeme?`
finds and of nothing else (`lexeme?_eq_some`). What is said below of the token that a text
starts with is said kind by kind.
-/

namespace IcFront

variable {expected : Expectation} {c : Char} {cs : List Char} {l : Lexeme}

/-- The token that the text `c :: cs` starts with, kind by kind. -/
inductive LexemeAt (expected : Expectation) (c : Char) (cs : List Char) : Lexeme → Prop
  | text {n : Nat} (hc : c = '"') (he : expected .text = true)
    (hn : stringLiteral? cs = some n) : LexemeAt expected c cs ⟨.text, n + 1⟩
  | className (hc : isUpper c = true) (he : expected .className = true) :
    LexemeAt expected c cs ⟨.className, ((c :: cs).takeWhile isWordChar).length⟩
  | word (hc : isLower c = true) (he : expected .name = true) :
    LexemeAt expected c cs (wordLexeme expected (c :: cs))
  | keyword {l : Lexeme} (hc : isLower c = true) (he : expected .name = false)
    (hl : keywordLexeme? expected (c :: cs) = some l) : LexemeAt expected c cs l
  | integer (hc : isDigit c = true) (he : expected .integer = true) :
    LexemeAt expected c cs ⟨.integer, ((c :: cs).takeWhile isDigit).length⟩
  | brackets {n : Nat} (hc : c = '[') (he : expected .brackets = true)
    (hn : emptyBrackets? cs = some n) : LexemeAt expected c cs ⟨.brackets, n + 1⟩
  | sign {l : Lexeme} (hc : isOpening c = false)
    (hb : c = '[' → expected .brackets = true → emptyBrackets? cs = none)
    (hl : signLexeme? expected (c :: cs) = some l) : LexemeAt expected c cs l

theorem isOpening_eq_false : isOpening c = false ↔
    c ≠ '"' ∧ isUpper c = false ∧ isLower c = false ∧ isDigit c = false := by
  simp only [isOpening, Bool.or_eq_false_iff, decide_eq_false_iff_not, and_assoc, ne_eq]

theorem lexemeAt_of_lexeme? (h : lexeme? expected (c :: cs) = some l) :
    LexemeAt expected c cs l := by
  -- the first character decides: a quote, an upper-case letter, a lower-case one, a digit, others
  simp only [lexeme?] at h
  split at h
  · next hc =>
    split at h
    · next he =>
      obtain ⟨n, hn, rfl⟩ := Option.map_eq_some_iff.1 h
      exact .text hc he hn
    · cases h
  · next hquote =>
    split at h
    · next hc =>
      split at h
      · next he =>
        obtain rfl := Option.some.inj h
        exact .className hc he
      · cases h
    · next hupper =>
      split at h
      · next hc =>
        split at h
        · next he =>
          obtain rfl := Option.some.inj h
          exact .word hc he
        · next he => exact .keyword hc (by simpa using he) h
      · next hlower =>
        split at h
        · next hc =>
          split at h
          · next he =>
            obtain rfl := Option.some.inj h
            exact .integer hc he
          · cases h
        · next hdigit =>
          have hc : isOpening c = false := by simp [isOpening, hquote, hupper, hlower, hdigit]
          split at h
          · next hopen =>
            simp only [Bool.and_eq_true, decide_eq_true_eq] at hopen
            split at h
            · next n hn =>
              obtain rfl := Option.some.inj h
              exact .brackets hopen.1 hopen.2 hn
            · next hn => exact .sign hc (fun _ _ => hn) h
          · next hopen => exact .sign hc (fun hc hb => by simp [hc, hb] at hopen) h

theorem lexeme?_of_lexemeAt (h : LexemeAt expected c cs l) :
    lexeme? expected (c :: cs) = some l := by
  cases h with
  | text hc he hn => simp [lexeme?, hc, he, hn]
  | className hc he =>
    have hquote : c ≠ '"' := by rintro rfl; cases hc
    simp only [lexeme?, hquote, hc, he, if_true, if_false]
  | word hc he =>
    have hquote : c ≠ '"' := by rintro rfl; cases hc
    simp only [lexeme?, hquote, isUpper_of_isLower hc, hc, he, if_true, if_false,
      Bool.false_eq_true]
  | keyword hc he hl =>
    have hquote : c ≠ '"' := by rintro rfl; cases hc
    simp only [lexeme?, hquote, isUpper_of_isLower hc, hc, he, hl, if_true, if_false,
      Bool.false_eq_true]
  | integer hc he =>
    have hquote : c ≠ '"' := by rintro rfl; cases hc
    obtain ⟨hupper, hlower⟩ := isLetter_of_isDigit hc
    simp only [lexeme?, hquote, hupper, hlower, hc, he, if_true, if_false,
      Bool.false_eq_true]
  | brackets hc he hn =>
    subst hc
    have hopening : isOpening '[' = false := by decide
    obtain ⟨hquote, hupper, hlower, hdigit⟩ := isOpening_eq_false.1 hopening
    simp only [lexeme?, hquote, hupper, hlower, hdigit, he, hn, decide_true, Bool.and_self,
      if_true, if_false, Bool.false_eq_true]
  | sign hc hb hl =>
    obtain ⟨hquote, hupper, hlower, hdigit⟩ := isOpening_eq_false.1 hc
    simp only [lexeme?, hquote, hupper, hlower, hdigit, if_false, Bool.false_eq_true]
    split
    · next hopen =>
      simp only [Bool.and_eq_true, decide_eq_true_eq] at hopen
      rw [hb hopen.1 hopen.2]
      exact hl
    · exact hl

/-- `LexemeAt` says what is read. -/
theorem lexeme?_eq_some : lexeme? expected (c :: cs) = some l ↔ LexemeAt expected c cs l :=
  ⟨lexemeAt_of_lexeme?, lexeme?_of_lexemeAt⟩

/-- A text that starts with a token has a first character. -/
theorem exists_lexemeAt (h : lexeme? expected cs = some l) :
    ∃ c rest, cs = c :: rest ∧ LexemeAt expected c rest l := by
  cases cs with
  | nil => cases h
  | cons c rest => exact ⟨c, rest, rfl, lexemeAt_of_lexeme? h⟩

/-- The text of a token has a first character. -/
theorem exists_lexemeAt_append {text : List Char} (h : lexeme? expected (text ++ cs) = some l)
    (hl : l.length = text.length) :
    ∃ c rest, text = c :: rest ∧ LexemeAt expected c (rest ++ cs) l := by
  cases text with
  | nil =>
    have hpos := (lexeme?_bounds h).1
    rw [hl] at hpos
    cases hpos
  | cons c rest => exact ⟨c, rest, rfl, lexemeAt_of_lexeme? h⟩

/-! ## Signs and words -/

/-- The sign that is read is expected, and the text starts with it. -/
theorem prefix_of_signLexeme? (h : signLexeme? expected cs = some l) :
    ∃ s : Sign, l = ⟨.sign s, s.text.length⟩ ∧ expected (.sign s) = true ∧
      s.text.toList <+: cs := by
  obtain ⟨s, hs, rfl⟩ := Option.map_eq_some_iff.1 h
  have hpred := List.find?_some hs
  rw [Bool.and_eq_true, List.isPrefixOf_iff_prefix] at hpred
  exact ⟨s, rfl, hpred.1, hpred.2⟩

/-- The sign that is read starts with the character that the text starts with. -/
theorem signLexeme?_eq_some (h : signLexeme? expected (c :: cs) = some l) :
    ∃ s : Sign, l = ⟨.sign s, s.text.length⟩ ∧ expected (.sign s) = true ∧
      s.text.toList.head? = some c := by
  obtain ⟨s, rfl, he, hprefix⟩ := prefix_of_signLexeme? h
  obtain ⟨d, ds, hs, -⟩ := s.text_eq_cons
  refine ⟨s, rfl, he, ?_⟩
  rw [hs] at hprefix ⊢
  rw [(List.cons_prefix_cons.1 hprefix).1]
  rfl

/-- The reserved word that is read is expected. -/
theorem keywordLexeme?_eq_some (h : keywordLexeme? expected cs = some l) :
    ∃ k : Keyword, l = ⟨.keyword k, k.text.length⟩ ∧ expected (.keyword k) = true := by
  obtain ⟨k, hk, rfl⟩ := Option.map_eq_some_iff.1 h
  have hpred := List.find?_some hk
  rw [Bool.and_eq_true] at hpred
  exact ⟨k, rfl, hpred.1⟩

/-- A word is a name, or a reserved word that is looked for. -/
theorem wordLexeme_of_none {word : List Char} (hword : cs.takeWhile isWordChar = word)
    (hk : Keyword.ofText? (String.ofList word) = none) :
    wordLexeme expected cs = ⟨.name, word.length⟩ := by
  rw [wordLexeme, hword]
  simp only [hk]

theorem wordLexeme_of_some {word : List Char} (hword : cs.takeWhile isWordChar = word)
    {k : Keyword} (hk : Keyword.ofText? (String.ofList word) = some k) :
    wordLexeme expected cs =
      ⟨if expected (.keyword k) then .keyword k else .name, word.length⟩ := by
  rw [wordLexeme, hword]
  simp only [hk]

/-- A word is read as a name, or as a reserved word that is looked for. -/
theorem wordLexeme_terminal (expected : Expectation) (cs : List Char) :
    (wordLexeme expected cs).terminal = .name ∨
      ∃ k, (wordLexeme expected cs).terminal = .keyword k ∧ expected (.keyword k) = true := by
  cases hk : Keyword.ofText? (String.ofList (cs.takeWhile isWordChar)) with
  | none =>
    rw [wordLexeme_of_none rfl hk]
    exact .inl rfl
  | some k =>
    rw [wordLexeme_of_some rfl hk]
    cases he : expected (.keyword k) with
    | true => exact .inr ⟨k, by simp, he⟩
    | false => exact .inl (by simp)

/-- A word that is read as a name is no reserved word that is looked for. -/
theorem wordLexeme_name {n : Nat} (h : wordLexeme expected cs = ⟨.name, n⟩) {k : Keyword}
    (hk : String.ofList (cs.take n) = k.text) : expected (.keyword k) = false := by
  have hlength : n = (cs.takeWhile isWordChar).length := by
    rw [← wordLexeme_length expected cs, h]
  have hword : Keyword.ofText? (String.ofList (cs.takeWhile isWordChar)) = some k := by
    rw [← k.ofText?_text, ← hk, hlength,
      ← List.prefix_iff_eq_take.1 (List.takeWhile_prefix isWordChar)]
  rw [wordLexeme_of_some rfl hword] at h
  cases he : expected (.keyword k) with
  | false => rfl
  | true => simp [he] at h

/-! ## What is read -/

/-- What is read is expected. -/
theorem lexeme?_expected (h : lexeme? expected cs = some l) : expected l.terminal = true := by
  obtain ⟨c, cs, rfl, hl⟩ := exists_lexemeAt h
  cases hl with
  | text _ he | className _ he | integer _ he | brackets _ he => exact he
  | word _ he =>
    rcases wordLexeme_terminal expected (c :: cs) with hname | ⟨k, hk, hexpected⟩
    · rwa [hname]
    · rwa [hk]
  | keyword _ _ hl =>
    obtain ⟨k, rfl, he⟩ := keywordLexeme?_eq_some hl
    exact he
  | sign _ _ hl =>
    obtain ⟨s, rfl, he, -⟩ := signLexeme?_eq_some hl
    exact he

/-- A name is read as a word. -/
theorem lexeme?_name (h : lexeme? expected cs = some l) (hname : l.terminal = .name) :
    wordLexeme expected cs = l := by
  obtain ⟨c, cs, rfl, hl⟩ := exists_lexemeAt h
  cases hl with
  | word => rfl
  | keyword _ _ hl =>
    obtain ⟨k, rfl, -⟩ := keywordLexeme?_eq_some hl
    cases hname
  | sign _ _ hl =>
    obtain ⟨s, rfl, -⟩ := signLexeme?_eq_some hl
    cases hname
  | text | className | integer | brackets => cases hname

/-- A class name is a word that starts with an upper-case letter. -/
theorem lexeme?_className (h : lexeme? expected cs = some l) (hname : l.terminal = .className) :
    ∃ c rest, cs.take l.length = c :: rest ∧ isUpper c = true ∧
      ∀ d ∈ rest, isWordChar d = true := by
  obtain ⟨c, cs, rfl, hl⟩ := exists_lexemeAt h
  cases hl with
  | className hc =>
    have hword : isWordChar c = true := by simp [isWordChar, hc]
    refine ⟨c, cs.takeWhile isWordChar, ?_, hc, fun d hd => ?_⟩
    · rw [← List.takeWhile_cons_of_pos hword]
      exact (List.prefix_iff_eq_take.1 (List.takeWhile_prefix isWordChar)).symm
    · exact List.all_eq_true.1 List.all_takeWhile d hd
  | word =>
    rcases wordLexeme_terminal expected (c :: cs) with hword | ⟨k, hk, -⟩
    · rw [hword] at hname
      cases hname
    · rw [hk] at hname
      cases hname
  | keyword _ _ hl =>
    obtain ⟨k, rfl, -⟩ := keywordLexeme?_eq_some hl
    cases hname
  | sign _ _ hl =>
    obtain ⟨s, rfl, -⟩ := signLexeme?_eq_some hl
    cases hname
  | text | integer | brackets => cases hname

/-- What starts with none of the characters that start a name, a number or a string is
read as a sign, or as empty brackets. -/
theorem lexeme?_of_not_opening (hc : isOpening c = false)
    (h : lexeme? expected (c :: cs) = some l) :
    (c = '[' ∧ expected .brackets = true ∧
      ∃ n, emptyBrackets? cs = some n ∧ l = ⟨.brackets, n + 1⟩) ∨
    ((c = '[' → expected .brackets = true → emptyBrackets? cs = none) ∧
      signLexeme? expected (c :: cs) = some l) := by
  obtain ⟨hquote, hupper, hlower, hdigit⟩ := isOpening_eq_false.1 hc
  cases lexeme?_eq_some.1 h with
  | text hc => exact absurd hc hquote
  | className hc => simp [hupper] at hc
  | word hc | keyword hc => simp [hlower] at hc
  | integer hc => simp [hdigit] at hc
  | brackets hc he hn => exact .inl ⟨hc, he, _, hn, rfl⟩
  | sign _ hb hl => exact .inr ⟨hb, hl⟩

/-- It is a sign, unless it is empty brackets. -/
theorem lexeme?_eq_signLexeme? (hc : isOpening c = false)
    (hb : c = '[' → emptyBrackets? cs = none) :
    lexeme? expected (c :: cs) = signLexeme? expected (c :: cs) := by
  refine Option.ext fun l => ⟨fun h => ?_, fun h => ?_⟩
  · rcases lexeme?_of_not_opening hc h with ⟨rfl, -, n, hn, -⟩ | ⟨-, hl⟩
    · simp [hb rfl] at hn
    · exact hl
  · exact lexeme?_eq_some.2 (.sign hc (fun hc _ => hb hc) h)

/-- A string, a class name or a number is read in the same way wherever it is looked for. -/
theorem lexeme?_of_opening (hc : isOpening c = true) (hlower : isLower c = false)
    (h : lexeme? expected (c :: cs) = some l) {expected' : Expectation}
    (he : expected' l.terminal = true) : lexeme? expected' (c :: cs) = some l := by
  rw [lexeme?_eq_some] at h ⊢
  cases h with
  | text hc _ hn => exact .text hc he hn
  | className hc => exact .className hc he
  | integer hc => exact .integer hc he
  | word hc | keyword hc => simp [hlower] at hc
  | brackets hbracket => subst hbracket; cases hc
  | sign hsign => simp [hc] at hsign

/-- A text that starts with a lower-case letter starts with a word, or a reserved word. -/
theorem lexeme?_lower (hc : cs.head? = some c) (hlower : isLower c = true) :
    lexeme? expected cs =
      if expected .name then some (wordLexeme expected cs) else keywordLexeme? expected cs := by
  obtain ⟨cs, rfl⟩ := List.head?_eq_some_iff.1 hc
  have hquote : c ≠ '"' := by
    rintro rfl
    cases hlower
  simp only [lexeme?, hquote, isUpper_of_isLower hlower, hlower, if_true, if_false,
    Bool.false_eq_true]

end IcFront
