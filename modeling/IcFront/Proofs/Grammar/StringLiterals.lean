import IcFront.Proofs.Grammar.Lexemes

/-!
# What string literals stand for

A literal is read as far as its `LiteralBody` goes and the quote behind it
(`stringLiteral?_eq_some_iff`). What it stands for says how it was written, except that a
tab may stand as it is or as an escape (`LiteralBody.unescape_eq_iff`). Any text without a
backslash has a literal. A text with a backslash has none: its quotation has two
backslashes in a row, which no literal may have (`stringLiteral?_backslash`).

Escapes are resolved piece by piece, as long as no piece ends between a backslash and the
character that it escapes, which is so if it ends with an even number of backslashes
(`unescape_append`).
-/

namespace IcFront

variable {a b cs body rest : List Char}

/-! ## Reading literals -/

/-- A literal ends at the first quote that is not escaped. -/
theorem stringLiteral?_eq_some_iff {n : Nat} : stringLiteral? cs = some n ↔
    ∃ body rest, cs = body ++ '"' :: rest ∧ LiteralBody body ∧ n = body.length + 1 := by
  constructor
  · intro h
    fun_induction stringLiteral? cs generalizing n with
    | case1 => cases h
    | case2 rest =>
      obtain rfl := Option.some.inj h
      exact ⟨[], rest, rfl, .nil, rfl⟩
    | case3 => cases h
    | case4 d rest hd _ _ ih =>
      obtain ⟨m, hm, rfl⟩ := Option.map_eq_some_iff.mp h
      obtain ⟨body, more, rfl, hbody, rfl⟩ := ih hm
      simp only [Bool.or_eq_true, decide_eq_true_eq, or_assoc] at hd
      exact ⟨_, more, rfl, .escape hd hbody, rfl⟩
    | case5 => cases h
    | case6 => cases h
    | case7 c rest hquote hnewline hslash ih =>
      obtain ⟨m, hm, rfl⟩ := Option.map_eq_some_iff.mp h
      obtain ⟨body, more, rfl, hbody, rfl⟩ := ih hm
      exact ⟨_, more, rfl, .plain hquote hnewline hslash hbody, rfl⟩
  · intro h
    obtain ⟨body, rest, rfl, hbody, rfl⟩ := h
    rw [hbody.stringLiteral?_append, stringLiteral?.eq_def]
    rfl

/-- Nothing is read where a backslash is escaped. -/
theorem stringLiteral?_backslash (h : LiteralBody body) (rest : List Char) :
    stringLiteral? (body ++ '\\' :: '\\' :: rest) = none := by
  rw [h.stringLiteral?_append, stringLiteral?.eq_def]
  rfl

/-- The quotation of a text is read if there is no backslash in it, and else not. -/
theorem stringLiteral?_escape (value rest : List Char) :
    stringLiteral? (value.flatMap escapeChar ++ '"' :: rest) =
      if '\\' ∈ value then none else some ((value.flatMap escapeChar).length + 1) := by
  by_cases h : '\\' ∈ value
  · -- The text is read up to its first backslash.
    obtain ⟨before, after, rfl, hbefore⟩ := List.eq_append_cons_of_mem h
    rw [if_pos h, List.flatMap_append, List.flatMap_cons, List.append_assoc]
    exact stringLiteral?_backslash (literalBody_escape hbefore) _
  · rw [if_neg h, stringLiteral?_text rest h]

/-! ## What literals stand for -/

/-- A text with its tabs escaped. -/
def escapeTabs (cs : List Char) : List Char :=
  cs.flatMap fun c => if c = '\t' then ['\\', 't'] else [c]

/-- What a literal stands for, written again, is the literal, with its tabs escaped. -/
theorem LiteralBody.escape_unescape (h : LiteralBody body) :
    (unescape body).flatMap escapeChar = escapeTabs body := by
  induction h with
  | nil => rfl
  | escape hd _ ih =>
    rcases hd with rfl | rfl | rfl <;> simp [unescape, escaped, escapeTabs, escapeChar, ih]
  | plain hquote hnewline hslash _ ih =>
    rw [unescape_cons hslash, List.flatMap_cons, ih]
    simp [escapeTabs, escapeChar, hquote, hnewline, hslash]

theorem LiteralBody.unescape_escapeTabs (h : LiteralBody body) :
    unescape (escapeTabs body) = unescape body := by
  rw [← h.escape_unescape, unescape_escape]

/-- Two literals stand for the same text only if they differ in how tabs are written. -/
theorem LiteralBody.unescape_eq_iff (ha : LiteralBody a) (hb : LiteralBody b) :
    unescape a = unescape b ↔ escapeTabs a = escapeTabs b := by
  constructor
  · intro h
    rw [← ha.escape_unescape, ← hb.escape_unescape, h]
  · intro h
    rw [← ha.unescape_escapeTabs, ← hb.unescape_escapeTabs, h]

/-! ## Escapes piece by piece -/

/-- The number of backslashes that a text ends with. -/
def backslashes (cs : List Char) : Nat := (cs.reverse.takeWhile (· = '\\')).length

theorem backslashes_le (cs : List Char) : backslashes cs ≤ cs.length := by
  rw [← List.length_reverse]
  exact (List.takeWhile_prefix _).length_le

/-- One character more at the front counts only if it is a backslash, and so are all others. -/
theorem backslashes_cons (c : Char) (cs : List Char) :
    backslashes (c :: cs) =
      if c = '\\' ∧ backslashes cs = cs.length then cs.length + 1 else backslashes cs := by
  unfold backslashes
  rw [List.reverse_cons, List.takeWhile_append, List.length_reverse]
  by_cases hall : (cs.reverse.takeWhile (· = '\\')).length = cs.length
  · by_cases hc : c = '\\'
    · simp [hall, hc]
    · simp [hall, hc]
  · simp [hall]

/-- An escape at the front is passed over as a whole. -/
theorem backslashes_escape (d : Char) (cs : List Char) :
    backslashes ('\\' :: d :: cs) % 2 = backslashes cs % 2 := by
  have hle := backslashes_le cs
  rw [backslashes_cons, backslashes_cons, List.length_cons]
  by_cases hall : d = '\\' ∧ backslashes cs = cs.length
  · rw [if_pos hall, if_pos ⟨rfl, rfl⟩]
    omega
  · rw [if_neg hall, if_neg fun h => by omega]

/-- Escapes are resolved piece by piece if no escape is cut in two. -/
theorem unescape_append (h : backslashes a % 2 = 0) (b : List Char) :
    unescape (a ++ b) = unescape a ++ unescape b := by
  fun_induction unescape a with
  | case1 => rfl
  | case2 c =>
    have hc : c ≠ '\\' := by
      rintro rfl
      exact absurd h (by decide)
    rw [List.singleton_append, unescape_cons hc, List.singleton_append]
  | case3 d rest ih =>
    rw [backslashes_escape] at h
    simp [unescape, ih h]
  | case4 c d rest hc ih =>
    rw [backslashes_cons, if_neg fun hall => hc hall.1] at h
    rw [List.cons_append, unescape_cons hc, ih h, List.cons_append]

/-! ## Literals as tokens -/

section Tokens

variable {expected : Expectation} {quoted quoted' : String}

/-- What stands between the quotes of a literal. -/
def quotedBody (quoted : String) : List Char := (quoted.toList.drop 1).dropLast

/-- A text that is one string literal. -/
def IsLiteral (expected : Expectation) (quoted : String) : Prop :=
  lexeme? expected quoted.toList = some ⟨.text, quoted.length⟩

/-- A string literal starts with a quote. -/
theorem lexeme?_text {l : Lexeme} (h : lexeme? expected cs = some l) (htext : l.terminal = .text) :
    ∃ rest n, cs = '"' :: rest ∧ stringLiteral? rest = some n ∧ l.length = n + 1 := by
  obtain ⟨c, cs, rfl, hl⟩ := exists_lexemeAt h
  cases hl with
  | @text n hc _ hn => exact ⟨cs, n, by rw [hc], hn, rfl⟩
  | word =>
    rcases wordLexeme_terminal expected (c :: cs) with hword | ⟨k, hk, -⟩
    · rw [hword] at htext
      cases htext
    · rw [hk] at htext
      cases htext
  | keyword _ _ hl =>
    obtain ⟨k, rfl, -⟩ := keywordLexeme?_eq_some hl
    cases htext
  | sign _ _ hl =>
    obtain ⟨s, rfl, -⟩ := signLexeme?_eq_some hl
    cases htext
  | className | integer | brackets => cases htext

/-- A string literal is a body between quotes. -/
theorem IsLiteral.literalBody (h : IsLiteral expected quoted) :
    LiteralBody (quotedBody quoted) := by
  obtain ⟨rest, n, hquoted, hn, hlength⟩ := lexeme?_text h rfl
  obtain ⟨body, more, rfl, hbody, rfl⟩ := stringLiteral?_eq_some_iff.mp hn
  -- The literal is as long as the text.
  have hmore : more = [] := by
    simp only [← String.length_toList, hquoted, List.length_cons, List.length_append] at hlength
    exact List.eq_nil_of_length_eq_zero (by omega)
  subst hmore
  rw [quotedBody, hquoted, List.drop_one, List.tail_cons, List.dropLast_concat]
  exact hbody

/-- Where string literals are expected, the quotation of a text is one, whatever follows it, unless
there is a backslash in the text. What it stands for is the text, also if there is a backslash
in it. Two literals stand for one text only if they differ in how tabs are written. Escapes
are resolved piece by piece if no escape is cut in two. -/
theorem string_literals (he : expected .text = true) :
    (∀ (value : String) rest, lexeme? expected ((quotation value).toList ++ rest) =
      if '\\' ∈ value.toList then none else some ⟨.text, (quotation value).length⟩) ∧
    (∀ value, quotedValue (quotation value) = value) ∧
    (∀ quoted quoted', IsLiteral expected quoted → IsLiteral expected quoted' →
      (quotedValue quoted = quotedValue quoted' ↔
        escapeTabs (quotedBody quoted) = escapeTabs (quotedBody quoted'))) ∧
    ∀ a b, backslashes a % 2 = 0 → unescape (a ++ b) = unescape a ++ unescape b := by
  refine ⟨fun value rest => ?_, quotedValue_quotation, fun quoted quoted' h h' => ?_,
    fun a b h => unescape_append h b⟩
  · have hlength : (quotation value).length = (value.toList.flatMap escapeChar).length + 2 := by
      rw [← String.length_toList, quotation, String.toList_ofList, List.length_append]
      rfl
    rw [hlength, quotation, String.toList_ofList, List.cons_append, List.cons_append,
      List.append_assoc, List.singleton_append]
    simp only [lexeme?, if_true, he, stringLiteral?_escape]
    split <;> rfl
  · rw [← h.literalBody.unescape_eq_iff h'.literalBody]
    exact String.ofList_inj

/-- A text with a tab and a quote in it, before another quote. -/
theorem string_literals_tab :
    lexeme? .operand ((quotation "a\t\"b").toList ++ ['"']) =
        some ⟨.text, (quotation "a\t\"b").length⟩ ∧
      quotation "a\t\"b" = "\"a\\t\\\"b\"" ∧ quotedValue (quotation "a\t\"b") = "a\t\"b" := by
  obtain ⟨hread, hvalue, -⟩ := @string_literals .operand rfl
  have hplain : '\\' ∉ "a\t\"b".toList := by decide
  exact ⟨(hread "a\t\"b" ['"']).trans (if_neg hplain), by decide +kernel, hvalue "a\t\"b"⟩

/-- The quotation of a path with a backslash in it is not read. -/
theorem quotation_not_read : ¬ ∀ (expected : Expectation) (value : String) rest,
    expected .text = true → lexeme? expected ((quotation value).toList ++ rest) =
      some ⟨.text, (quotation value).length⟩ := by
  intro h
  have hread := h .operand "C:\\tmp" [] rfl
  have hno : lexeme? .operand ((quotation "C:\\tmp").toList ++ []) = none := by decide +kernel
  rw [hread] at hno
  cases hno

end Tokens

end IcFront
