import IcFront.Proofs.Grammar.TypesRead
import IcFront.Proofs.Grammar.Unreserved
import IcFront.Proofs.Grammar.Viable

/-!
# Words and reserved words

The tokens of an accepted text are nearly those that the longest match gives, which looks
for everything everywhere and reserves the words of the language (`Longest`). They differ
from these in two ways, and only where the longest token would not fit (`Cut`): where a name
is looked for and a reserved word is not, the word is a name; and where a reserved word is
looked for and no name is, what follows the word directly is no part of it.

`Program.parse_words` says so of whole texts. With signs there is no difference: a longer
sign ends with an equals sign, and no operand starts with one
(`longest_sign`).
-/

namespace IcFront

/-! ## Longest tokens -/

/-- What a text is cut into if what may follow is left out of account: everything is looked
for, but for the length of an array, which stands after a dot only. -/
def reserving (before : List Form) : Expectation
  | .keyword .length => before.getLast?.map Prod.fst = some (.sign .dot)
  | _ => true

/-- A text is the longest token that some text starts with, words reserved. -/
def Longest (before : List Form) (text rest : List Char) (terminal : Terminal) : Prop :=
  lexeme? (reserving before) (text ++ rest) = some ⟨terminal, text.length⟩

section Lexemes

variable {expected : Expectation} {text rest : List Char}

theorem Longest.of_wordLexeme {before : List Form} {c : Char} (hc : (text ++ rest).head? = some c)
    (hlower : isLower c = true) {terminal : Terminal}
    (h : wordLexeme (reserving before) (text ++ rest) = ⟨terminal, text.length⟩) :
    Longest before text rest terminal := by
  have hname : reserving before .name = true := rfl
  rw [Longest, lexeme?_lower hc hlower, if_pos hname, h]

theorem Keyword.text_of_ofText? {word : String} {k : Keyword} (h : ofText? word = some k) :
    k.text = word := by
  simpa using List.find?_some h

/-- A sign that starts another is followed in it by an equals sign, and wants an operand. -/
theorem Sign.eq_of_prefix {s s' : Sign} (h : s.text.toList <+: s'.text.toList) :
    s' = s ∨ s'.text.toList = s.text.toList ++ ['='] ∧ s.wantsOperand = true := by
  have hall : ∀ s ∈ all, ∀ s' ∈ all, s.text.toList.isPrefixOf s'.text.toList = true →
      s' = s ∨ s'.text.toList = s.text.toList ++ ['='] ∧ s.wantsOperand = true := by
    decide +kernel
  exact hall s s.mem_all s' s'.mem_all (List.isPrefixOf_iff_prefix.2 h)

/-- A sign that is read is the longest one there, unless an equals sign follows it. -/
theorem signLexeme?_longest {s : Sign}
    (h : signLexeme? expected (text ++ rest) = some ⟨.sign s, text.length⟩)
    (hrest : s.wantsOperand = true → rest.head? ≠ some '=') {expected' : Expectation}
    (hall : ∀ s, expected' (.sign s) = true) :
    signLexeme? expected' (text ++ rest) = some ⟨.sign s, text.length⟩ := by
  obtain ⟨found, hfound, hl⟩ := Option.map_eq_some_iff.1 h
  obtain ⟨hterminal, hlength⟩ := Lexeme.mk.inj hl
  obtain rfl := Terminal.sign.inj hterminal
  have hpred := List.find?_some hfound
  rw [Bool.and_eq_true] at hpred
  obtain rfl := eq_of_isPrefixOf hpred.2 hlength
  obtain ⟨before, after, hsigns, hbefore⟩ := found.first_of_prefixes
  have hfind : Sign.all.find? (fun s => expected' (.sign s) &&
      s.text.toList.isPrefixOf (found.text.toList ++ rest)) = some found := by
    rw [List.find?_eq_some_iff_append]
    refine ⟨by simp [hall], before, after, hsigns, fun s hs => ?_⟩
    rw [hall, Bool.true_and, Bool.not_eq_true', Bool.eq_false_iff, ne_eq,
      List.isPrefixOf_iff_prefix]
    intro hstart
    have hno := hbefore s hs
    rw [Bool.eq_false_iff, ne_eq, List.isPrefixOf_iff_prefix] at hno
    rcases List.prefix_or_prefix_of_prefix hstart (List.prefix_append _ rest) with hp | hp
    · exact hno hp
    · rcases Sign.eq_of_prefix hp with rfl | ⟨hequals, hwants⟩
      · exact hno List.prefix_rfl
      · rw [hequals, List.prefix_append_right_inj] at hstart
        obtain ⟨tail, rfl⟩ := hstart
        exact hrest hwants rfl
  rw [signLexeme?, hfind, ← hlength]
  rfl

end Lexemes

/-! ## What may be read at a place -/

/-- Marks of positions are those of the tokens that lead to them. -/
theorem Advances.account {rest cs : List Char} {p q : Position} {offset : Nat} {ts : List Token}
    (h : Advances rest p cs offset ts q) (hp : p.Faithful) :
    q.marks = p.marks ++ ts.map Token.mark := by
  induction h with
  | refl => simp
  | token hgap hlayout hlexeme hfeed hrest ih =>
    obtain ⟨hmarks, hq⟩ := (Position.feed_eq_some_iff.1 hfeed).account hp
    rw [ih hq, hmarks, List.append_assoc]
    rfl

namespace Position

/-- The length of an array is looked for after a dot only. -/
theorem getLast?_marks {p : Position} (h : p.expects (.keyword .length) = true) :
    p.marks.getLast? = some (.sign .dot) := by
  cases p with
  | body c s b =>
    obtain ⟨enc, spot⟩ := b
    cases spot with
    | expr x =>
      cases x with
      | dot e p => simp [marks, Body.marks, Spot.marks, ExprSpot.marks]
      | _ => cases h
    | _ => cases h
  | _ => cases h

end Position

/-- The reserved words that are looked for at some places where no name is. -/
def Keyword.cuttable : List Keyword := [.class_, .extends_, .static, .int, .boolean, .string, .void]

theorem Position.mem_cuttable {p : Position} {k : Keyword} (hk : p.expects (.keyword k) = true)
    (hname : p.expects .name = false) : k ∈ Keyword.cuttable := by
  cases p with
  | body c s b =>
    obtain ⟨enc, spot⟩ := b
    cases spot with
    | expr x => cases x <;> cases hname <;> cases k <;> cases hk <;> decide
    | _ => cases hname <;> cases k <;> cases hk
  | _ => cases hname <;> cases k <;> cases hk <;> decide

/-! ## How tokens are cut off -/

/-- A way to cut tokens off a text: after some tokens, a text stands in front of a rest for a
terminal. -/
abbrev Cutting := List Form → List Char → List Char → Terminal → Prop

/-- After some tokens a text is cut into further ones, with a filler before each. -/
inductive Lexed (cut : Cutting) : List Form → List Char → List Form → Prop
  | done {before : List Form} {cs : List Char} (hlayout : layout cs = cs.length) :
    Lexed cut before cs []
  | token {before ts : List Form} {gap text rest : List Char} {terminal : Terminal}
    (hgap : Filler gap) (hlayout : layout (text ++ rest) = 0) (hcut : cut before text rest terminal)
    (hrest : Lexed cut (before ++ [(terminal, String.ofList text)]) rest ts) :
    Lexed cut before (gap ++ (text ++ rest)) ((terminal, String.ofList text) :: ts)

/-- How a token of an accepted text is cut off it, after other tokens. It is the longest
token there; or it is a name although it is a reserved word, where that word does not fit;
or it is a reserved word at the start of a longer one, where no name fits. -/
inductive Cut (before : List Form) : List Char → List Char → Terminal → Prop
  | longest {text rest : List Char} {terminal : Terminal}
    (h : Longest before text rest terminal) : Cut before text rest terminal
  | name {k : Keyword} {text rest : List Char} (h : Longest before text rest (.keyword k))
    (hwrong : ¬ Viable (before ++ [(.keyword k, String.ofList text)])) :
    Cut before text rest .name
  | keyword {k : Keyword} {more rest : List Char} (hk : k ∈ Keyword.cuttable) (hmore : more ≠ [])
    (h : Longest before (k.text.toList ++ more) rest .name)
    (hwrong : ∀ w, ¬ Viable (before ++ [(.name, w)])) :
    Cut before k.text.toList (more ++ rest) (.keyword k)

section Cut

variable {cs front : List Char} {before : List Token} {p : Position} {text rest : List Char}
  {terminal : Terminal}

/-- Only what is looked for fits. -/
theorem Advances.not_viable_of_expects (h : Advances cs .start front 0 before p)
    (hterminal : p.expects terminal = false)
    (text : String) : ¬ Viable (before.map Token.form ++ [(terminal, text)]) := by
  intro hviable
  obtain ⟨q, r, rest', hq, -, hlexeme⟩ := hviable.exists_step
  obtain rfl := Option.some.inj (h.after.symm.trans hq)
  have hexpected := lexeme?_expected hlexeme
  rw [p.expects_unplaced, hterminal] at hexpected
  cases hexpected

/-- What is looked for after some tokens is looked for by the longest match too. -/
theorem Advances.reserving (h : Advances cs .start front 0 before p)
    (hterminal : p.expects terminal = true) :
    reserving (before.map Token.form) terminal = true := by
  have hmarks := h.account (by simp [Position.start, Position.Faithful])
  cases terminal with
  | keyword k =>
    cases k with
    | length =>
      have hlast := p.getLast?_marks hterminal
      rw [hmarks, show Position.start.marks = [] from rfl, List.nil_append,
        List.getLast?_map] at hlast
      obtain ⟨t, ht, hdot⟩ := Option.map_eq_some_iff.1 hlast
      have hterminal : t.terminal = .sign .dot := by
        obtain ⟨terminal, text, line, offset⟩ := t
        cases terminal <;> cases hdot
        rfl
      simp [IcFront.reserving, List.getLast?_map, ht, Token.form, hterminal]
    | _ => rfl
  | _ => rfl

/-- A word where a name is looked for is cut off whole. -/
theorem Advances.cut_word (h : Advances cs .start front 0 before p) {c : Char}
    (hc : (text ++ rest).head? = some c) (hlower : isLower c = true)
    (hlexeme : wordLexeme p.expects (text ++ rest) = ⟨terminal, text.length⟩) :
    Cut (before.map Token.form) text rest terminal := by
  have hword : (text ++ rest).takeWhile isWordChar = text := by
    have hlength := wordLexeme_length p.expects (text ++ rest)
    rw [hlexeme] at hlength
    exact (List.prefix_of_prefix_length_le (List.takeWhile_prefix _) (List.prefix_append ..)
      (Nat.le_of_eq hlength.symm)).eq_of_length hlength.symm
  cases hk : Keyword.ofText? (String.ofList text) with
  | none =>
    rw [wordLexeme_of_none hword hk] at hlexeme
    cases hlexeme
    exact .longest (.of_wordLexeme hc hlower (wordLexeme_of_none hword hk))
  | some k =>
    rw [wordLexeme_of_some hword hk] at hlexeme
    by_cases he : p.expects (.keyword k) = true
    · rw [if_pos he] at hlexeme
      cases hlexeme
      refine .longest (.of_wordLexeme hc hlower ?_)
      rw [wordLexeme_of_some hword hk, if_pos (h.reserving he)]
    · rw [if_neg he] at hlexeme
      cases hlexeme
      by_cases hr : IcFront.reserving (before.map Token.form) (.keyword k) = true
      · refine .name (k := k) (.of_wordLexeme hc hlower ?_)
          (h.not_viable_of_expects (by simpa using he) _)
        rw [wordLexeme_of_some hword hk, if_pos hr]
      · refine .longest (.of_wordLexeme hc hlower ?_)
        rw [wordLexeme_of_some hword hk, if_neg hr]

/-- A reserved word where no name is looked for may be the start of a longer word. -/
theorem Advances.cut_keyword (h : Advances cs .start front 0 before p) {c : Char}
    (hc : (text ++ rest).head? = some c) (hlower : isLower c = true)
    (hname : p.expects .name = false)
    (hlexeme : keywordLexeme? p.expects (text ++ rest) = some ⟨terminal, text.length⟩) :
    Cut (before.map Token.form) text rest terminal := by
  obtain ⟨k, hk, hl⟩ := Option.map_eq_some_iff.1 hlexeme
  obtain ⟨rfl, hlength⟩ := Lexeme.mk.inj hl
  have hpred := List.find?_some hk
  rw [Bool.and_eq_true] at hpred
  obtain rfl := eq_of_isPrefixOf hpred.2 hlength
  have hletters : ∀ c ∈ k.text.toList, isWordChar c = true := fun c hc => by
    simp [isWordChar, k.isLower_text c hc]
  have hword : (k.text.toList ++ rest).takeWhile isWordChar =
      k.text.toList ++ rest.takeWhile isWordChar := List.takeWhile_append_of_pos hletters
  by_cases hmore : rest.takeWhile isWordChar = []
  · rw [hmore, List.append_nil] at hword
    refine .longest (.of_wordLexeme hc hlower ?_)
    rw [wordLexeme_of_some hword (by rw [String.ofList_toList, k.ofText?_text]),
      if_pos (h.reserving hpred.1)]
  · -- the longer word is none that is reserved, since no reserved word starts another
    have hnone : Keyword.ofText? (String.ofList
        (k.text.toList ++ rest.takeWhile isWordChar)) = none := by
      cases hk' : Keyword.ofText? (String.ofList
          (k.text.toList ++ rest.takeWhile isWordChar)) with
      | none => rfl
      | some k' =>
        have htext := Keyword.text_of_ofText? hk'
        have hstart : k.text.toList <+: k'.text.toList := by
          rw [htext, String.toList_ofList]
          exact List.prefix_append ..
        rw [← Keyword.eq_of_prefix hstart] at htext
        have := congrArg String.toList htext
        rw [String.toList_ofList] at this
        exact absurd (List.self_eq_append_right.1 this) hmore
    have hrest := List.takeWhile_append_dropWhile (p := isWordChar) (l := rest)
    rw [← hrest] at hc hword ⊢
    rw [← List.append_assoc] at hc hword
    refine .keyword (p.mem_cuttable hpred.1 hname) hmore
      (.of_wordLexeme hc hlower (wordLexeme_of_none ?_ hnone)) fun w =>
      h.not_viable_of_expects hname w
    rw [hword, hrest]

/-- Where an operand must follow no equals sign comes next. -/
theorem Reads.head?_ne_equals {q : Position} {cs : List Char} {offset : Nat} {ts : List Token}
    {tree : ProgramTree} (h : Reads q cs offset ts tree) (hq : q.expects = .operand)
    (hfinish : q.finish? = none) : cs.head? ≠ some '=' := by
  have hnone (cs : List Char) : lexeme? .operand ('=' :: cs) = none := by
    rw [lexeme?_eq_signLexeme? (by decide) (by simp)]
    cases hl : signLexeme? .operand ('=' :: cs) with
    | none => rfl
    | some l =>
      obtain ⟨s, -, he, hs⟩ := signLexeme?_eq_some hl
      cases s <;> cases hs <;> cases he
  cases h with
  | done hlayout htree => rw [hfinish] at htree; cases htree
  | @token _ _ gap text rest _ terminal ts _ hgap hlayout hlexeme hfeed hrest =>
    cases hgap with
    | nil =>
      rw [List.nil_append]
      intro hhead
      obtain ⟨cs, hcs⟩ := List.head?_eq_some_iff.1 hhead
      rw [hcs, hq, hnone] at hlexeme
      cases hlexeme
    | blank hc _ =>
      rintro ⟨⟩
      cases hc
    | line | block => simp

/-- A sign of an accepted text is the longest one there. -/
theorem longest_sign (before : List Form) {c : Char} {tail : List Char} (hc : text = c :: tail)
    (hopening : isOpening c = false)
    (hlexeme : lexeme? p.expects (text ++ rest) = some ⟨terminal, text.length⟩) {line offset : Nat}
    {q : Position} (hfeed : p.feed ⟨terminal, String.ofList text, line, offset⟩ = some q)
    {next : Nat} {ts : List Token} {tree : ProgramTree} (hrest : Reads q rest next ts tree) :
    Longest before text rest terminal := by
  subst hc
  rw [List.cons_append] at hlexeme
  rcases lexeme?_of_not_opening hopening hlexeme with ⟨rfl, -, n, hn, hl⟩ | ⟨-, hsign⟩
  · obtain ⟨rfl, hlength⟩ := Lexeme.mk.inj hl
    rw [Longest, hlength]
    simp [lexeme?, hn, isUpper, isLower, isDigit, reserving]
  · obtain ⟨s, hl, -, hs⟩ := signLexeme?_eq_some hsign
    obtain ⟨rfl, hlength⟩ := Lexeme.mk.inj hl
    have hoperand := Position.feed_operand (s := s) hfeed rfl
    have hbrackets (hb : c = '[') : emptyBrackets? (tail ++ rest) = none := by
      subst hb
      obtain rfl := s.eq_of_head?.1 hs
      obtain rfl : tail = [] := List.eq_nil_of_length_eq_zero (Nat.succ.inj hlength)
      obtain ⟨he, hf⟩ := hoperand rfl
      exact hrest.emptyBrackets?_eq_none (by rw [he]; rfl) hf
    rw [Longest, List.cons_append, lexeme?_eq_signLexeme? hopening hbrackets]
    have hsigns (s : Sign) : reserving before (.sign s) = true := rfl
    rw [← List.cons_append] at hsign ⊢
    refine signLexeme?_longest hsign (fun hwants => ?_) hsigns
    obtain ⟨he, hf⟩ := hoperand hwants
    exact hrest.head?_ne_equals he hf

/-- How a token of an accepted text is cut off it. -/
theorem Advances.cut (h : Advances cs .start front 0 before p)
    (hlexeme : lexeme? p.expects (text ++ rest) = some ⟨terminal, text.length⟩) {line offset : Nat}
    {q : Position} (hfeed : p.feed ⟨terminal, String.ofList text, line, offset⟩ = some q)
    {next : Nat} {ts : List Token} {tree : ProgramTree} (hrest : Reads q rest next ts tree) :
    Cut (before.map Token.form) text rest terminal := by
  obtain ⟨c, tail, hc⟩ : ∃ c tail, text = c :: tail :=
    List.exists_cons_of_length_pos (lexeme?_bounds hlexeme).1
  have hhead : (text ++ rest).head? = some c := by rw [hc]; rfl
  by_cases hlower : isLower c = true
  · have hl := hlexeme
    rw [lexeme?_lower hhead hlower] at hl
    split at hl
    · exact h.cut_word hhead hlower (Option.some.inj hl)
    · next hname => exact h.cut_keyword hhead hlower (by simpa using hname) hl
  · by_cases hopening : isOpening c = true
    · refine .longest ?_
      subst hc
      exact lexeme?_of_opening hopening (by simpa using hlower) hlexeme
        (h.reserving (lexeme?_expected hlexeme))
    · exact .longest (longest_sign _ hc (by simpa using hopening) hlexeme hfeed hrest)

end Cut

/-- How an accepted text is cut into tokens. -/
theorem Reads.lexed {front cs : List Char} {before ts : List Token} {p : Position} {offset : Nat}
    {tree : ProgramTree} (h : Reads p cs offset ts tree)
    (hbefore : Advances cs .start front 0 before p) (hoffset : offset = front.length) :
    Lexed Cut (before.map Token.form) cs (ts.map Token.form) := by
  induction h generalizing front before with
  | done hlayout => exact .done hlayout
  | @token p q gap text rest offset terminal ts tree hgap hlayout hlexeme hfeed hrest ih =>
    have hcut := hbefore.cut hlexeme hfeed hrest
    rw [hoffset, ← Nat.zero_add front.length] at hfeed
    have hnext := ih (hbefore.snoc hgap hlayout hlexeme hfeed)
      (by simp only [List.length_append]; omega)
    rw [List.map_append] at hnext
    exact .token hgap hlayout hcut hnext

/-- An accepted text is cut into its tokens, and nothing is left of it. -/
theorem Accepted.lexed {source : String} (h : Accepted source) :
    Lexed Cut [] source.toList (Reading.of source).forms := by
  obtain ⟨tree, htree⟩ := h
  obtain ⟨ts, places, hreads, htokens, -⟩ := Reading.exists_reads htree
  rw [Reading.forms_eq htokens]
  exact hreads.lexed .refl rfl

theorem Lexed.exists_cut {cut : Cutting} {before ts : List Form} {cs : List Char}
    (h : Lexed cut before cs ts) {terminal : Terminal} {word : String}
    (hmem : (terminal, word) ∈ ts) :
    ∃ before text rest, cut before text rest terminal ∧ word = String.ofList text := by
  induction h with
  | done => cases hmem
  | @token before ts gap text rest terminal hgap hlayout hcut hrest ih =>
    rcases List.mem_cons.1 hmem with heq | hmem
    · cases heq
      exact ⟨before, text, rest, hcut, rfl⟩
    · exact ih hmem

/-- No name is a reserved word if the longest tokens are taken, but for the length of an
array. -/
theorem Longest.eq_length {before : List Form} {text rest : List Char}
    (h : Longest before text rest .name) {k : Keyword} (hk : String.ofList text = k.text) :
    k = .length := by
  have hno := wordLexeme_name (lexeme?_name h rfl) (k := k) (by rwa [List.take_left])
  cases k <;> first | rfl | cases hno

/-- How the words of a text are read that has a syntax tree.

Its tokens are the longest, words reserved, but that a name may be a reserved word where
that word does not fit, and that a reserved word may be the start of a longer word where no
name fits. Every name in the syntax tree is a token of the text that is a name. And the
names that the methods use are none of the words that start other operands; those after a
dot are not that of the length of an array. -/
theorem Program.parse_words {source : String} {p : Program Expr}
    (h : Program.parse source = .ok p) :
    Lexed Cut [] source.toList (Reading.of source).forms ∧
    (∀ word, .name word ∈ p.marks → (.name, word) ∈ (Reading.of source).forms) ∧
    p.Unreserved := by
  obtain ⟨tree, htree, hmarks, hp, -⟩ := exists_tree h
  refine ⟨Accepted.lexed ⟨tree, htree⟩, fun word hword => ?_, unreserved_of_parse h⟩
  rw [hp] at hword
  obtain ⟨c, hc, hword⟩ := List.mem_flatMap.1 hword
  have hmem : Mark.name word ∈ (Reading.of source).tokens.map Token.mark :=
    hmarks ▸ List.mem_flatMap.2 ⟨c, hc, ClassTree.mem_marks_of_arranged hword⟩
  obtain ⟨t, ht, hmark⟩ := List.mem_map.1 hmem
  have hform : t.form = (.name, word) := by
    obtain ⟨terminal, text, line, offset⟩ := t
    cases terminal <;> cases hmark
    rfl
  exact hform ▸ List.mem_map_of_mem ht

/-- A class whose name follows the word for it directly, with a field that is called like a
reserved word. -/
def crowded : String := "classA \x7b int class; \x7d"

/-- The class and the field are read. -/
theorem Program.parse_words_crowded : ∃ p : Program Expr, Program.parse crowded = .ok p ∧
    Lexed Cut [] crowded.toList (Reading.of crowded).forms ∧ p.Unreserved := by
  have hok : (Program.parse crowded).isOk = true := by decide +kernel
  cases hp : Program.parse crowded with
  | ok p =>
    obtain ⟨hlexed, -, hunreserved⟩ := parse_words hp
    exact ⟨p, rfl, hlexed, hunreserved⟩
  | error e =>
    rw [hp] at hok
    cases hok

/-- A text is accepted whose tokens are not the longest: a letter of the next token follows
a reserved word directly, and a field is called like one. -/
theorem Program.crowded_not_longest : (∃ p, Program.parse crowded = .ok p ∧
      ∃ c ∈ p.classes, ∃ f ∈ c.fields, f.name = Keyword.class_.text) ∧
    (Reading.of crowded).tokens.take 2 =
      [⟨.keyword .class_, "class", 1, 0⟩, ⟨.className, "A", 1, 5⟩] ∧
    ¬ Lexed Longest [] crowded.toList (Reading.of crowded).forms := by
  refine ⟨?_, by decide +kernel, fun hlexed => ?_⟩
  · have hfield : ((Program.parse crowded).toOption.any fun p =>
        p.classes.any fun c => c.fields.any (·.name == Keyword.class_.text)) = true := by
      decide +kernel
    cases hp : Program.parse crowded with
    | ok p =>
      rw [hp] at hfield
      simp only [Except.toOption, Option.any_some, List.any_eq_true, beq_iff_eq] at hfield
      exact ⟨p, rfl, hfield⟩
    | error e =>
      rw [hp] at hfield
      cases hfield
  · have hmem : (.name, "class") ∈ (Reading.of crowded).forms := by decide +kernel
    obtain ⟨before, text, rest, hlongest, hword⟩ := hlexed.exists_cut hmem
    have hlength := hlongest.eq_length (k := .class_) hword.symm
    cases hlength

end IcFront
