import IcFront.Grammar.Reading
import IcFront.Proofs.Grammar.Lexemes

/-!
# Layout between tokens

A *filler* is layout that is complete: blanks, line comments with the end of their line,
and block comments with their close. What stands before a token is always a filler
(`exists_filler`), and a filler in front of a text is layout of it whatever the text is
(`Filler.layout_append`).

Where a token ends is seen at the first character after it: the token is cut off in the
same way if that character stays, or if a space comes instead (`lexeme?_akin`). Two signs
need more: an opening bracket must not become empty brackets, and a slash must not become
the start of a comment.
-/

namespace IcFront

/-- Blanks, line comments with the end of their line, and block comments with their
close. -/
inductive Filler : List Char → Prop
  | nil : Filler []
  | blank {c : Char} {cs : List Char} (hc : isLayout c = true) (hcs : Filler cs) :
    Filler (c :: cs)
  | line {body cs : List Char} (hbody : '\n' ∉ body) (hcs : Filler cs) :
    Filler ('/' :: '/' :: (body ++ '\n' :: cs))
  | block {body cs : List Char} (hbody : ¬ ['*', '/'] <:+: body) (hcs : Filler cs) :
    Filler ('/' :: '*' :: (body ++ '*' :: '/' :: cs))

/-! ## Comments -/

/-- A block comment ends at its first close. -/
theorem blockComment?_append {body : List Char} (h : ¬ ['*', '/'] <:+: body) (cs : List Char) :
    blockComment? (body ++ '*' :: '/' :: cs) = some (body.length + 2) := by
  induction body with
  | nil => rfl
  | cons c body ih =>
    have hbody : ¬ ['*', '/'] <:+: body := fun hb =>
      h (hb.trans (List.infix_cons (List.infix_refl _)))
    have hopen (rest : List Char) (hc : c = '*') : body ++ '*' :: '/' :: cs ≠ '/' :: rest := by
      subst hc
      cases body with
      | nil => simp
      | cons d body =>
        rintro ⟨⟩
        exact h ⟨[], body, rfl⟩
    rw [List.cons_append, blockComment?.eq_2 _ _ fun rest hc hrest => hopen rest hc hrest, ih hbody]
    rfl

/-- What stands before the close of a block comment holds no close. -/
theorem blockComment?_eq_some {cs : List Char} {n : Nat} (h : blockComment? cs = some n) :
    ∃ body rest, cs = body ++ '*' :: '/' :: rest ∧ n = body.length + 2 ∧
      ¬ ['*', '/'] <:+: body := by
  fun_induction blockComment? cs generalizing n with
  | case1 rest =>
    obtain rfl := Option.some.inj h
    exact ⟨[], rest, rfl, rfl, by decide⟩
  | case2 c rest hopen ih =>
    obtain ⟨m, hm, rfl⟩ := Option.map_eq_some_iff.1 h
    obtain ⟨body, rest, rfl, rfl, hbody⟩ := ih hm
    refine ⟨c :: body, rest, rfl, rfl, fun hinfix => ?_⟩
    rcases List.infix_cons_iff.1 hinfix with hprefix | hinfix
    · obtain ⟨hc, hprefix⟩ := List.cons_prefix_cons.1 hprefix
      obtain ⟨tail, rfl⟩ := hprefix
      exact hopen _ hc.symm rfl
    · exact hbody hinfix
  | case3 => cases h

theorem lineComment_append {body : List Char} (h : '\n' ∉ body) (cs : List Char) :
    lineComment (body ++ '\n' :: cs) = body.length := by
  have hbody : ∀ c ∈ body, decide (c ≠ '\n') = true := by
    intro c hc
    rw [decide_eq_true_eq]
    rintro rfl
    exact h hc
  rw [lineComment, List.takeWhile_append_of_pos hbody]
  simp

/-- A line comment takes all up to the end of its line, or of the text. -/
theorem exists_line (cs : List Char) : ∃ body rest, cs = body ++ rest ∧ '\n' ∉ body ∧
    lineComment cs = body.length ∧ (rest = [] ∨ ∃ rest', rest = '\n' :: rest') := by
  induction cs with
  | nil => exact ⟨[], [], rfl, by simp, rfl, .inl rfl⟩
  | cons c cs ih =>
    by_cases hc : c = '\n'
    · subst hc
      exact ⟨[], '\n' :: cs, rfl, by simp, by simp [lineComment], .inr ⟨cs, rfl⟩⟩
    · obtain ⟨body, rest, rfl, hbody, hlength, hrest⟩ := ih
      refine ⟨c :: body, rest, rfl, by simpa [hbody] using Ne.symm hc, ?_, hrest⟩
      simpa [lineComment, hc] using hlength

/-! ## Layout -/

theorem layout_blank {c : Char} (h : isLayout c = true) (cs : List Char) :
    layout (c :: cs) = 1 + layout cs := by
  rw [layout.eq_def]
  split
  · next heq => cases heq; cases h
  · next heq => cases heq; cases h
  · next heq => cases heq; rw [if_pos h]
  · next heq => cases heq

/-- Layout starts with a blank, or with a slash and one more or a star. -/
theorem layout_eq_zero {c : Char} {cs : List Char} (h : isLayout c = false)
    (hslash : c = '/' → cs.head? ≠ some '/' ∧ cs.head? ≠ some '*') : layout (c :: cs) = 0 := by
  rw [layout.eq_def]
  split
  · next heq => cases heq; exact absurd rfl (hslash rfl).1
  · next heq => cases heq; exact absurd rfl (hslash rfl).2
  · next heq => cases heq; rw [if_neg (by simp [h])]
  · rfl

theorem layout_line {body : List Char} (h : '\n' ∉ body) (cs : List Char) :
    layout ('/' :: '/' :: (body ++ '\n' :: cs)) = body.length + 3 + layout cs := by
  rw [layout, lineComment_append h, List.drop_left, layout_blank (by decide)]
  omega

theorem layout_block {body : List Char} (h : ¬ ['*', '/'] <:+: body) (cs : List Char) :
    layout ('/' :: '*' :: (body ++ '*' :: '/' :: cs)) = body.length + 4 + layout cs := by
  have hdrop : (body ++ '*' :: '/' :: cs).drop (body.length + 2) = cs := by
    simp [List.drop_append]
  rw [layout, blockComment?_append h]
  simp only [hdrop]
  omega

namespace Filler

/-- A filler is layout of any text that it stands before. -/
theorem layout_append {gap : List Char} (h : Filler gap) (rest : List Char) :
    layout (gap ++ rest) = gap.length + layout rest := by
  induction h with
  | nil => simp
  | blank hc _ ih => rw [List.cons_append, layout_blank hc, ih, List.length_cons]; omega
  | line hbody _ ih =>
    simp only [List.cons_append, List.append_assoc, layout_line hbody, ih, List.length_cons,
      List.length_append]
    omega
  | block hbody _ ih =>
    simp only [List.cons_append, List.append_assoc, layout_block hbody, ih, List.length_cons,
      List.length_append]
    omega

theorem append {gap gap' : List Char} (h : Filler gap) (h' : Filler gap') :
    Filler (gap ++ gap') := by
  induction h with
  | nil => exact h'
  | blank hc _ ih => exact blank hc ih
  | line hbody _ ih => simpa using line hbody ih
  | block hbody _ ih => simpa using block hbody ih

end Filler

/-- What stands before a token is a filler, and no layout is left after it. -/
theorem exists_filler (cs : List Char) : ∃ gap rest, cs = gap ++ rest ∧
    gap.length = layout cs ∧ layout rest = 0 ∧ (rest ≠ [] → Filler gap) := by
  fun_induction layout cs with
  | case1 rest ih =>
    obtain ⟨body, tail, rfl, hbody, hlength, htail⟩ := exists_line rest
    rw [hlength, List.drop_left] at ih ⊢
    obtain ⟨gap, rest, hgap, hlayout, hrest, hfiller⟩ := ih
    refine ⟨'/' :: '/' :: (body ++ gap), rest, by simp [hgap], ?_, hrest, fun hne => ?_⟩
    · simp only [List.length_cons, List.length_append, hlayout]
      omega
    -- text follows the comment, so that a line end closes it: the first blank of the filler
    · rcases htail with rfl | ⟨tail, rfl⟩
      · exact absurd (List.append_eq_nil_iff.1 hgap.symm).2 hne
      · cases hfiller hne with
        | nil =>
          rw [layout_blank (by decide)] at hlayout
          simp at hlayout
          omega
        | blank hc h =>
          obtain ⟨rfl, -⟩ := List.cons.inj hgap
          exact .line hbody h
        | line => cases hgap
        | block => cases hgap
  | case2 rest n hn ih =>
    obtain ⟨body, rest, rfl, rfl, hbody⟩ := blockComment?_eq_some hn
    have hdrop : (body ++ '*' :: '/' :: rest).drop (body.length + 2) = rest := by
      simp [List.drop_append]
    rw [hdrop] at ih ⊢
    obtain ⟨gap, rest', rfl, hlength, hrest, hfiller⟩ := ih
    refine ⟨'/' :: '*' :: (body ++ '*' :: '/' :: gap), rest', by simp, ?_, hrest,
      fun hne => .block hbody (hfiller hne)⟩
    simp only [List.length_cons, List.length_append, hlength]
    omega
  | case3 rest hn => exact ⟨[], _, rfl, rfl, by rw [layout, hn], fun _ => .nil⟩
  | case4 c rest hline hblock hc ih =>
    obtain ⟨gap, rest', rfl, hlength, hrest, hgap⟩ := ih
    exact ⟨c :: gap, rest', rfl, by rw [List.length_cons, hlength]; omega, hrest,
      fun h => .blank hc (hgap h)⟩
  | case5 c rest hline hblock hc =>
    refine ⟨[], _, rfl, rfl, ?_, fun _ => .nil⟩
    rw [layout.eq_3 _ _ hline hblock, if_neg hc]
  | case6 => exact ⟨[], [], rfl, rfl, by rw [layout], fun _ => .nil⟩

/-! ## Where tokens end -/

theorem Sign.length_text (s : Sign) : 1 ≤ s.text.toList.length ∧ s.text.toList.length ≤ 2 := by
  cases s <;> decide

/-- No sign starts with a blank. -/
theorem Sign.not_blank_head? (s : Sign) : s.text.toList.head?.any isBlank = false := by
  cases s <;> decide

/-- Signs that no other sign starts like. -/
theorem Sign.eq_of_head? (s : Sign) :
    (s.text.toList.head? = some '[' → s = .lbracket) ∧
    (s.text.toList.head? = some ']' → s = .rbracket) ∧
    (s.text.toList.head? = some '*' → s = .star) ∧
    (s.text.toList.head? = some '/' → s = .slash) := by
  cases s <;> decide

/-- What may come after a token instead of something else: it starts with the same
character, or with a space. -/
def Akin (cs cs' : List Char) : Prop := cs'.head? = cs.head? ∨ cs'.head? = some ' '

section Akin

variable {text cs cs' : List Char}

theorem takeWhile_eq_nil {p : Char → Bool} {cs : List Char} :
    cs.takeWhile p = [] ↔ ∀ c ∈ cs.head?, p c = false := by
  cases cs with
  | nil => simp
  | cons c cs => simp [List.takeWhile_cons]

/-- A run of characters of a kind that spaces are not of ends where it ended. -/
theorem takeWhile_akin (p : Char → Bool) (text : List Char) (hspace : p ' ' = false)
    (h : ((text ++ cs).takeWhile p).length = text.length) (hakin : Akin cs cs') :
    (text ++ cs').takeWhile p = (text ++ cs).takeWhile p := by
  rw [List.takeWhile_append] at h ⊢
  split at h
  · next hall =>
    have hnil : cs.takeWhile p = [] := by
      rw [List.length_append] at h
      exact List.eq_nil_of_length_eq_zero (by omega)
    have hnil' : cs'.takeWhile p = [] := by
      rw [takeWhile_eq_nil] at hnil ⊢
      rcases hakin with hakin | hakin
      · rwa [hakin]
      · rw [hakin]
        rintro _ ⟨⟩
        exact hspace
    rw [if_pos hall, List.takeWhile_append, if_pos hall, hnil, hnil']
  · next hpart => exact absurd h hpart

/-- Whether a string literal ends depends on its own characters. -/
theorem stringLiteral?_take {cs : List Char} {n : Nat} (h : stringLiteral? cs = some n)
    (cs' : List Char) : stringLiteral? (cs.take n ++ cs') = some n := by
  fun_induction stringLiteral? cs generalizing n with
  | case1 => cases h
  | case2 =>
    obtain rfl := Option.some.inj h
    simp [stringLiteral?.eq_def]
  | case3 => cases h
  | case4 d rest hd _ _ ih =>
    obtain ⟨m, hm, rfl⟩ := Option.map_eq_some_iff.1 h
    simp [stringLiteral?, hd, ih hm]
  | case5 => cases h
  | case6 => cases h
  | case7 c rest hquote hnewline hslash ih =>
    obtain ⟨m, hm, rfl⟩ := Option.map_eq_some_iff.1 h
    rw [List.take_succ_cons, List.cons_append, stringLiteral?.eq_def]
    simp [hquote, hnewline, hslash, ih hm]

theorem stringLiteral?_append (h : stringLiteral? (text ++ cs) = some text.length)
    (cs' : List Char) : stringLiteral? (text ++ cs') = some text.length := by
  simpa using stringLiteral?_take h cs'

/-- Empty brackets close after the blanks in them. -/
theorem emptyBrackets?_cons (c : Char) (cs : List Char) : emptyBrackets? (c :: cs) =
    if isBlank c then (emptyBrackets? cs).map (· + 1) else if c = ']' then some 1 else none := by
  cases hc : isBlank c with
  | false => simp [emptyBrackets?, hc]
  | true =>
    simp only [emptyBrackets?, List.takeWhile_cons, hc, if_true, List.length_cons,
      List.drop_succ_cons]
    split <;> rfl

/-- Whether empty brackets end depends on their own characters. -/
theorem emptyBrackets?_take {cs : List Char} {n : Nat} (h : emptyBrackets? cs = some n)
    (cs' : List Char) : emptyBrackets? (cs.take n ++ cs') = some n := by
  induction cs generalizing n with
  | nil => cases h
  | cons c cs ih =>
    rw [emptyBrackets?_cons] at h
    split at h
    · next hc =>
      obtain ⟨m, hm, rfl⟩ := Option.map_eq_some_iff.1 h
      rw [List.take_succ_cons, List.cons_append, emptyBrackets?_cons, if_pos hc, ih hm]
      rfl
    · next hc =>
      split at h
      · next hclose =>
        obtain rfl := Option.some.inj h
        subst hclose
        simp [emptyBrackets?_cons, hc]
      · cases h

theorem emptyBrackets?_append (h : emptyBrackets? (text ++ cs) = some text.length)
    (cs' : List Char) : emptyBrackets? (text ++ cs') = some text.length := by
  simpa using emptyBrackets?_take h cs'

/-- A filler opens no brackets that are closed after it. -/
theorem Filler.emptyBrackets?_append {gap : List Char} (h : Filler gap) (cs : List Char)
    (hcs : emptyBrackets? cs = none) : emptyBrackets? (gap ++ cs) = none := by
  cases h with
  | nil => exact hcs
  | blank hc h =>
    rw [List.cons_append, emptyBrackets?_cons, if_pos (isBlank_of_isLayout hc),
      emptyBrackets?_append h cs hcs]
    rfl
  | line | block => simp [emptyBrackets?_cons, show isBlank '/' = false by decide]

/-- A word without spaces starts two texts that are akin after all but its last
character, or neither. -/
theorem prefix_akin {word : List Char} (hakin : Akin cs cs') (hspace : ' ' ∉ word)
    (hlength : word.length ≤ text.length + 1) (h : word <+: text ++ cs') :
    word <+: text ++ cs := by
  induction text generalizing word with
  | nil =>
    obtain ⟨tail, h⟩ := h
    rcases word with _ | ⟨c, _ | ⟨d, word⟩⟩
    · exact List.nil_prefix
    · rw [List.nil_append] at h ⊢
      subst h
      rcases hakin with hakin | hakin
      · cases cs with
        | nil => cases hakin
        | cons d cs => cases hakin; exact ⟨cs, rfl⟩
      · cases hakin
        simp at hspace
    · simp at hlength
  | cons d text ih =>
    cases word with
    | nil => exact List.nil_prefix
    | cons c word =>
      obtain ⟨rfl, hword⟩ := List.cons_prefix_cons.1 h
      exact List.cons_prefix_cons.2 ⟨rfl, ih (fun hc => hspace (List.mem_cons_of_mem _ hc))
        (Nat.le_of_succ_le_succ hlength) hword⟩

/-- A word that starts a text and is as long as its beginning is that beginning. -/
theorem eq_of_isPrefixOf {word : String} (h : word.toList.isPrefixOf (text ++ cs) = true)
    (hlength : word.length = text.length) : word.toList = text := by
  rw [← String.length_toList] at hlength
  exact (List.prefix_of_prefix_length_le (List.isPrefixOf_iff_prefix.1 h)
    (List.prefix_append ..) (Nat.le_of_eq hlength)).eq_of_length hlength

variable {expected : Expectation} {l : Lexeme}

theorem signLexeme?_akin (h : signLexeme? expected (text ++ cs) = some l)
    (hl : l.length = text.length) (hakin : Akin cs cs') :
    signLexeme? expected (text ++ cs') = some l := by
  obtain ⟨s, hs, rfl⟩ := Option.map_eq_some_iff.1 h
  obtain ⟨hpred, before, after, hall, hbefore⟩ := List.find?_eq_some_iff_append.1 hs
  rw [Bool.and_eq_true] at hpred
  obtain rfl := eq_of_isPrefixOf hpred.2 hl
  have hfind : Sign.all.find? (fun s' => expected (.sign s') &&
      s'.text.toList.isPrefixOf (s.text.toList ++ cs')) = some s := by
    rw [List.find?_eq_some_iff_append]
    refine ⟨by simp [hpred.1], before, after, hall, fun s' hs' => ?_⟩
    have hno := hbefore s' hs'
    -- a sign has two characters at most, so that one character more is all that matters
    have hlength : s'.text.toList.length ≤ s.text.toList.length + 1 := by
      have := s'.length_text
      have := s.length_text
      omega
    rw [Bool.not_eq_true', Bool.and_eq_false_iff] at hno ⊢
    refine hno.imp_right fun hno => ?_
    rw [Bool.eq_false_iff, ne_eq, List.isPrefixOf_iff_prefix] at hno ⊢
    exact fun hprefix => hno (prefix_akin hakin s'.space_not_mem_text hlength hprefix)
  rw [signLexeme?, hfind]
  rfl

theorem keywordLexeme?_akin (h : keywordLexeme? expected (text ++ cs) = some l)
    (hl : l.length = text.length) (cs' : List Char) :
    keywordLexeme? expected (text ++ cs') = some l := by
  obtain ⟨k, hk, rfl⟩ := Option.map_eq_some_iff.1 h
  have hpred := List.find?_some hk
  rw [Bool.and_eq_true] at hpred
  obtain rfl := eq_of_isPrefixOf hpred.2 hl
  have hfind : Keyword.all.find? (fun k' => expected (.keyword k') &&
      k'.text.toList.isPrefixOf (k.text.toList ++ cs')) = some k := by
    cases hf : Keyword.all.find? (fun k' => expected (.keyword k') &&
        k'.text.toList.isPrefixOf (k.text.toList ++ cs')) with
    | none =>
      have := List.find?_eq_none.1 hf k k.mem_all
      simp [hpred.1] at this
    | some k' =>
      have hk' := List.find?_some hf
      rw [Bool.and_eq_true, List.isPrefixOf_iff_prefix] at hk'
      -- of two words that start the same text one starts the other
      rcases List.prefix_or_prefix_of_prefix hk'.2 (List.prefix_append ..) with hprefix | hprefix
      · rw [Keyword.eq_of_prefix hprefix]
      · rw [Keyword.eq_of_prefix hprefix]
  rw [keywordLexeme?, hfind]
  rfl

theorem wordLexeme_akin (text : List Char)
    (hl : (wordLexeme expected (text ++ cs)).length = text.length)
    (hakin : Akin cs cs') :
    wordLexeme expected (text ++ cs') = wordLexeme expected (text ++ cs) := by
  rw [wordLexeme_length] at hl
  rw [wordLexeme, takeWhile_akin isWordChar text (by decide) hl hakin, wordLexeme]

/-- The token that a text starts with is the same when the text goes on in another way,
unless an opening bracket becomes empty brackets. -/
theorem lexeme?_akin (h : lexeme? expected (text ++ cs) = some l) (hl : l.length = text.length)
    (hakin : Akin cs cs')
    (hopen : l.terminal = .sign .lbracket → expected .brackets = true → emptyBrackets? cs' = none) :
    lexeme? expected (text ++ cs') = some l := by
  obtain ⟨c, text, rfl, hat⟩ := exists_lexemeAt_append h hl
  -- a run of characters that ends with the token does so before the other text too
  have hrun {p : Char → Bool} (hspace : p ' ' = false)
      (hl : ((c :: (text ++ cs)).takeWhile p).length = (c :: text).length) :
      (c :: (text ++ cs)).takeWhile p = (c :: (text ++ cs')).takeWhile p :=
    (takeWhile_akin p (c :: text) hspace hl hakin).symm
  refine lexeme?_of_lexemeAt ?_
  cases hat with
  | text hc he hn =>
    obtain rfl := Nat.succ.inj hl
    exact .text hc he (stringLiteral?_append hn cs')
  | className hc he =>
    rw [hrun (by decide) hl]
    exact .className hc he
  | word hc he =>
    have hword := wordLexeme_akin (c :: text) hl hakin
    rw [List.cons_append, List.cons_append] at hword
    rw [← hword]
    exact .word hc he
  | keyword hc he hk => exact .keyword hc he (keywordLexeme?_akin hk hl cs')
  | integer hc he =>
    rw [hrun (by decide) hl]
    exact .integer hc he
  | brackets hc he hn =>
    obtain rfl := Nat.succ.inj hl
    exact .brackets hc he (emptyBrackets?_append hn cs')
  | sign hc hb hs =>
    refine .sign hc (fun hbracket he => ?_) (signLexeme?_akin hs hl hakin)
    obtain ⟨s, rfl, -, hhead⟩ := signLexeme?_eq_some hs
    obtain rfl := s.eq_of_head?.1 (hhead.trans (congrArg some hbracket))
    obtain rfl : text = [] := List.eq_nil_of_length_eq_zero (Nat.succ.inj hl).symm
    exact hopen rfl he

/-- What a token starts with: no blank, a closing bracket or a star only where these are
expected, and a slash only if it is the sign. -/
theorem head_of_lexeme? {c : Char} (h : lexeme? expected (c :: cs) = some l) :
    isBlank c = false ∧ (c = ']' → expected (.sign .rbracket) = true) ∧
      (c = '*' → expected (.sign .star) = true) ∧ (c = '/' → l = ⟨.sign .slash, 1⟩) := by
  cases hc : isOpening c with
  | true =>
    have hblank : isBlank c = false := by
      by_cases hquote : c = '"'
      · subst hquote
        decide
      · refine isBlank_of_isWordChar ?_
        simp only [isOpening, hquote, decide_false, Bool.false_or] at hc
        simp [isWordChar, hc]
    refine ⟨hblank, ?_, ?_, ?_⟩ <;>
    · rintro rfl
      cases hc
  | false =>
    rcases lexeme?_of_not_opening hc h with ⟨rfl, -⟩ | ⟨-, h⟩
    · exact ⟨by decide, by simp, by simp, by simp⟩
    · obtain ⟨s, rfl, he, hs⟩ := signLexeme?_eq_some h
      obtain ⟨-, hrbracket, hstar, hslash⟩ := s.eq_of_head?
      have hblank : isBlank c = false := by simpa [hs] using s.not_blank_head?
      refine ⟨hblank, ?_, ?_, ?_⟩
      · rintro rfl
        rwa [hrbracket hs] at he
      · rintro rfl
        rwa [hstar hs] at he
      · rintro rfl
        rw [hslash hs]
        rfl

/-- No layout comes before a token when the text goes on in another way, unless a slash
becomes the start of a comment. -/
theorem layout_akin (h : lexeme? expected (text ++ cs) = some l) (hl : l.length = text.length)
    (hlayout : layout (text ++ cs) = 0) (hakin : Akin cs cs')
    (hstar : l.terminal = .sign .slash → cs'.head? ≠ some '*') : layout (text ++ cs') = 0 := by
  obtain ⟨c, text, rfl, -⟩ := exists_lexemeAt_append h hl
  obtain ⟨hblank, -, -, hslash⟩ := head_of_lexeme? h
  have hc : isLayout c = false := by
    cases hc : isLayout c with
    | false => rfl
    | true => rw [isBlank_of_isLayout hc] at hblank; cases hblank
  refine layout_eq_zero hc fun hc => ?_
  subst hc
  obtain rfl := hslash rfl
  obtain rfl : text = [] := List.eq_nil_of_length_eq_zero (Nat.succ.inj hl).symm
  have hhead : cs.head? ≠ some '/' := fun hhead => by
    obtain ⟨cs, rfl⟩ := List.head?_eq_some_iff.1 hhead
    rw [List.cons_append, List.nil_append, layout] at hlayout
    omega
  refine ⟨?_, hstar rfl⟩
  rcases hakin with hakin | hakin
  · show cs'.head? ≠ some '/'
    rwa [hakin]
  · simp [hakin]

end Akin

end IcFront
