import IcFront.Proofs.Grammar.Viable

/-!
# Faults stand at the first token that does not fit

A text that is not accepted is read up to a fault (`Reading.go_ends`): the tokens before
the fault start some accepted text, and with what stands at the fault they do not
(`Reading.error_first`).

What stands at the fault may be cut off in two ways. A position looks for more terminals
than fit there, and then the token is what the position looks for; or nothing that is
looked for stands there, and then the token is what would stand there if everything were
looked for. In both cases no token with the same text fits: whether one stands at the start
of a text, and which it is, is seen from its own characters (`lexeme?_ne_none`,
`lexeme?_unique`).
-/

namespace IcFront

/-! ## What a text starts with -/

section Lexemes

variable {expected : Expectation} {text cs : List Char} {l : Lexeme}

theorem signLexeme?_ne_none {s : Sign} (he : expected (.sign s) = true)
    (hs : s.text.toList <+: cs) : signLexeme? expected cs ≠ none := by
  intro h
  have hnone := List.find?_eq_none.1 (Option.map_eq_none_iff.1 h) s s.mem_all
  rw [he, List.isPrefixOf_iff_prefix.2 hs] at hnone
  exact hnone rfl

/-- Where a token is read some token is read whatever comes after it. -/
theorem lexeme?_ne_none (h : lexeme? expected (text ++ cs) = some l)
    (hl : l.length = text.length) (cs' : List Char) : lexeme? expected (text ++ cs') ≠ none := by
  obtain ⟨c, text, rfl, hat⟩ := exists_lexemeAt_append h hl
  have hne {l : Lexeme} (hl : LexemeAt expected c (text ++ cs') l) :
      lexeme? expected (c :: text ++ cs') ≠ none :=
    Option.ne_none_iff_exists'.2 ⟨l, lexeme?_of_lexemeAt hl⟩
  cases hat with
  | text hc he hn =>
    obtain rfl := Nat.succ.inj hl
    exact hne (.text hc he (stringLiteral?_append hn cs'))
  | className hc he => exact hne (.className hc he)
  | word hc he => exact hne (.word hc he)
  | keyword hc he hk => exact hne (.keyword hc he (keywordLexeme?_akin hk hl cs'))
  | integer hc he => exact hne (.integer hc he)
  | brackets hc he hn =>
    obtain rfl := Nat.succ.inj hl
    exact hne (.brackets hc he (emptyBrackets?_append hn cs'))
  | sign hc hb hs =>
    obtain ⟨s, rfl, he, hs⟩ := prefix_of_signLexeme? hs
    have hstart : s.text.toList <+: (c :: text) := by
      refine List.prefix_of_prefix_length_le hs (List.prefix_append (c :: text) cs) ?_
      rw [String.length_toList]
      exact Nat.le_of_eq hl
    obtain ⟨l', hl'⟩ := Option.ne_none_iff_exists'.1
      (signLexeme?_ne_none he (hstart.trans (List.prefix_append (c :: text) cs')))
    -- an opening bracket may have become empty brackets
    by_cases hbracket : c = '[' ∧ expected .brackets = true
    · cases hn : emptyBrackets? (text ++ cs') with
      | none => exact hne (.sign hc (fun _ _ => hn) hl')
      | some n => exact hne (.brackets hbracket.1 hbracket.2 hn)
    · exact hne (.sign hc (fun hc he => absurd ⟨hc, he⟩ hbracket) hl')

/-- Which token has a text does not depend on what comes after it. -/
theorem lexeme?_unique {cs' : List Char} {l' : Lexeme}
    (h : lexeme? expected (text ++ cs) = some l) (hl : l.length = text.length)
    (h' : lexeme? expected (text ++ cs') = some l') (hl' : l'.length = text.length) : l = l' := by
  -- a space after the token changes neither
  have hspace : lexeme? expected (text ++ [' ']) = some l :=
    lexeme?_akin h hl (.inr rfl) fun _ _ => rfl
  have hspace' : lexeme? expected (text ++ [' ']) = some l' :=
    lexeme?_akin h' hl' (.inr rfl) fun _ _ => rfl
  exact Option.some.inj (hspace.symm.trans hspace')

end Lexemes

/-! ## Where reading ends -/

/-- How the reading of a text ends at what is left of it after some tokens: at the end of
the text, or with a fault. -/
inductive Ends (σ : Nat → Nat) (q : Position) (offset last : Nat) :
    List Char → Except (Nat × Misfit) ProgramTree → Prop
  | done {rest : List Char} {tree : ProgramTree} (hlayout : layout rest = rest.length)
    (hfinish : q.finish? = some tree) :
    Ends σ q offset last rest (.ok (ProgramTree.reline σ tree))
  | short {rest : List Char} (hlayout : layout rest = rest.length) (hfinish : q.finish? = none) :
    Ends σ q offset last rest (.error (last, .endOfText))
  | stray {gap cs : List Char} {c : Char} (hgap : Filler gap)
    (hlexeme : lexeme? q.expects (c :: cs) = none) :
    Ends σ q offset last (gap ++ (c :: cs))
      (.error (σ (offset + gap.length), Reading.misfit c cs))
  | unfit {gap text cs : List Char} {terminal : Terminal} (hgap : Filler gap)
    (hlexeme : lexeme? q.expects (text ++ cs) = some ⟨terminal, text.length⟩)
    (hfeed : q.unplaced.feedForm (terminal, String.ofList text) = none) :
    Ends σ q offset last (gap ++ (text ++ cs))
      (.error (σ (offset + gap.length), .token (String.ofList text)))

namespace Reading

section Go

variable {p : Position} {gap text cs : List Char} {line offset : Nat}

theorem go_end (hlayout : layout cs = cs.length) (last : Nat) : go p cs line offset last =
    match p.finish? with
    | some tree => ⟨[], .ok tree⟩
    | none => ⟨[], .error (last, .endOfText)⟩ := by
  rw [go]
  dsimp only
  split
  · rfl
  · next h =>
    rw [hlayout, List.drop_length] at h
    cases h

theorem go_stray {c : Char} (hgap : Filler gap) (hlayout : layout (c :: cs) = 0)
    (hlexeme : lexeme? p.expects (c :: cs) = none) (last : Nat) :
    go p (gap ++ (c :: cs)) line offset last =
      ⟨[], .error (line + lineEnds gap, misfit c cs)⟩ := by
  have hblank : layout (gap ++ (c :: cs)) = gap.length := by
    rw [hgap.layout_append, hlayout, Nat.add_zero]
  rw [go]
  dsimp only
  split
  · next h =>
    rw [hblank, List.drop_left] at h
    cases h
  · next h =>
    rw [hblank, List.drop_left] at h
    cases h
    split
    · rw [hblank, List.take_left]
    · next hl =>
      rw [hlexeme] at hl
      cases hl

theorem go_unfit {terminal : Terminal} (hgap : Filler gap) (hlayout : layout (text ++ cs) = 0)
    (hlexeme : lexeme? p.expects (text ++ cs) = some ⟨terminal, text.length⟩)
    (hfeed : p.feed ⟨terminal, String.ofList text, line + lineEnds gap, offset + gap.length⟩ =
      none) (last : Nat) : go p (gap ++ (text ++ cs)) line offset last =
      ⟨[], .error (line + lineEnds gap, .token (String.ofList text))⟩ := by
  have hblank : layout (gap ++ (text ++ cs)) = gap.length := by
    rw [hgap.layout_append, hlayout, Nat.add_zero]
  rw [go]
  dsimp only
  split
  · next h =>
    rw [hblank, List.drop_left] at h
    rw [h] at hlexeme
    cases hlexeme
  · next h =>
    rw [hblank, List.drop_left] at h
    split
    · next hl =>
      rw [← h, hlexeme] at hl
      cases hl
    · next l hl =>
      rw [← h, hlexeme] at hl
      obtain rfl := Option.some.inj hl
      simp only [← h, hblank, List.take_left, hfeed]

end Go

/-- Every text is read up to where the reading ends. -/
theorem go_ends {σ : Nat → Nat} {p : Position} {cs : List Char} {line offset : Nat}
    (hσ : Lines σ line offset cs) (last : Nat) : ∃ front rest ts q, cs = front ++ rest ∧
      Advances rest p front offset ts q ∧
      (go (p.reline σ) cs line offset last).tokens = ts.map (Token.reline σ) ∧
      Ends σ q (offset + front.length)
        (((ts.map (Token.reline σ)).getLast?.map Token.line).getD last) rest
        (go (p.reline σ) cs line offset last).result := by
  -- on the length of what is left: each token takes some of it
  induction hlength : cs.length using Nat.strongRecOn generalizing p cs line offset last with
  | ind n ih =>
    obtain ⟨gap, cs, rfl, hgapLength, hlayout, hgap⟩ := exists_filler cs
    cases cs with
    | nil =>
      have hblank : layout (gap ++ []) = (gap ++ []).length := by
        rw [← hgapLength, List.append_nil]
      refine ⟨[], gap ++ [], [], p, rfl, .refl, ?_⟩
      rw [go_end hblank, p.finish?_reline]
      cases hfinish : p.finish? with
      | none => exact ⟨rfl, .short hblank hfinish⟩
      | some tree => exact ⟨rfl, .done hblank hfinish⟩
    | cons c cs =>
      have hfiller := hgap (List.cons_ne_nil c cs)
      cases hl : lexeme? p.expects (c :: cs) with
      | none =>
        have hl' := hl
        rw [← p.expects_reline σ] at hl'
        refine ⟨[], gap ++ (c :: cs), [], p, rfl, .refl, ?_⟩
        rw [go_stray hfiller hlayout hl', ← hσ.length]
        exact ⟨rfl, .stray hfiller hl⟩
      | some l =>
        obtain ⟨terminal, length⟩ := l
        obtain ⟨text, rest, htext, rfl⟩ : ∃ text rest, c :: cs = text ++ rest ∧
            length = text.length :=
          ⟨(c :: cs).take length, (c :: cs).drop length, (List.take_append_drop ..).symm,
            (List.length_take_of_le (lexeme?_bounds hl).2).symm⟩
        rw [htext] at hlayout hl hσ hlength ⊢
        have hl' := hl
        rw [← p.expects_reline σ] at hl'
        have hfeed := p.feed_reline_at σ terminal (String.ofList text) (offset + gap.length)
          (offset + gap.length) (offset + gap.length)
        rw [hσ.length] at hfeed
        cases hq : p.feed ⟨terminal, String.ofList text, offset + gap.length,
            offset + gap.length⟩ with
        | none =>
          rw [hq] at hfeed
          have hform := p.feedForm_form ⟨terminal, String.ofList text, offset + gap.length,
            offset + gap.length⟩
          rw [hq] at hform
          refine ⟨[], gap ++ (text ++ rest), [], p, rfl, .refl, ?_⟩
          rw [go_unfit hfiller hlayout hl' hfeed, ← hσ.length]
          exact ⟨rfl, .unfit hfiller hl hform⟩
        | some q =>
          rw [hq] at hfeed
          have hpos : 0 < text.length := (lexeme?_bounds hl).1
          have hless : rest.length < n := by
            simp only [List.length_append] at hlength
            omega
          obtain ⟨front, rest, ts, r, rfl, hadvances, htokens, hends⟩ :=
            ih _ hless hσ.append.append (line + lineEnds gap) rfl
          refine ⟨gap ++ (text ++ front), rest, _ :: ts, r, by simp,
            .token hfiller hlayout hl hq hadvances, ?_⟩
          rw [go_token hfiller hlayout hl' hfeed last, cons, htokens, ← hσ.length]
          refine ⟨rfl, ?_⟩
          rw [← hσ.length, Nat.add_assoc, Nat.add_assoc, ← List.length_append,
            ← List.length_append] at hends
          rw [List.map_cons, List.getLast?_cons, Option.map_some, Option.getD_some,
            ← Option.getD_map Token.line]
          exact hends

end Reading

/-! ## Faults -/

theorem Advances.laidOut {rest : List Char} {p q : Position} {cs : List Char} {offset : Nat}
    {ts : List Token} (h : Advances rest p cs offset ts q) (source : List Char) :
    LaidOut source offset (ts.map (Token.reline (lineAt source))) cs := by
  induction h with
  | refl => exact .nil
  | token hgap _ _ _ _ ih => exact .token hgap ih

/-- A fault after some tokens of a text, at a line. What stands there fits after none of
the accepted texts that start with these tokens. -/
inductive FirstFault (source : List Char) (ts : List Token) : Nat → Misfit → Prop
  | token {front gap text cs : List Char} (hsource : source = front ++ (gap ++ (text ++ cs)))
    (htokens : LaidOut source 0 ts front) (hgap : Filler gap)
    (htoken : ∃ expected terminal,
      lexeme? expected (text ++ cs) = some ⟨terminal, text.length⟩)
    (hwrong : ∀ terminal, ¬ Viable (ts.map Token.form ++ [(terminal, String.ofList text)])) :
    FirstFault source ts (lineAt source (front ++ gap).length) (.token (String.ofList text))
  | character {front gap cs : List Char} {c : Char}
    (hsource : source = front ++ (gap ++ (c :: cs)))
    (htokens : LaidOut source 0 ts front) (hgap : Filler gap)
    (hwrong : ∀ terminal text, text.toList <+: c :: cs →
      ¬ Viable (ts.map Token.form ++ [(terminal, text)])) :
    FirstFault source ts (lineAt source (front ++ gap).length) (.character c)
  | endOfText {front rest : List Char} {t : Token} (hsource : source = front ++ rest)
    (htokens : LaidOut source 0 ts front) (hrest : layout rest = rest.length)
    (hlast : ts.getLast? = some t)
    (hincomplete : ∀ source', Accepted source' →
      (Reading.of source').forms ≠ ts.map Token.form) :
    FirstFault source ts t.line .endOfText

theorem lineAt_bounds (source : List Char) (offset : Nat) :
    1 ≤ lineAt source offset ∧ lineAt source offset ≤ 1 + Reading.lineEnds source :=
  ⟨Nat.le_add_right .., Nat.add_le_add_left ((List.take_sublist ..).count_le _) 1⟩

/-- The line of a fault is a line of the text. -/
theorem FirstFault.line_bounds {source : List Char} {ts : List Token} {line : Nat} {m : Misfit}
    (h : FirstFault source ts line m) : 1 ≤ line ∧ line ≤ 1 + Reading.lineEnds source := by
  cases h with
  | token | character => exact lineAt_bounds ..
  | endOfText _ htokens _ hlast =>
    rw [htokens.line_eq _ (List.mem_of_getLast? hlast)]
    exact lineAt_bounds ..

/-- A token that fits after what has been read is looked for there, and leads on. -/
theorem Advances.exists_lexeme {rest cs : List Char} {ts : List Token} {q : Position}
    (h : Advances rest .start cs 0 ts q) {terminal : Terminal} {text : String}
    (hviable : Viable (ts.map Token.form ++ [(terminal, text)])) :
    (∃ r, q.unplaced.feedForm (terminal, text) = some r) ∧
      ∃ rest', lexeme? q.expects (text.toList ++ rest') = some ⟨terminal, text.length⟩ := by
  obtain ⟨q', r, rest', hq', hfeed, hlexeme⟩ := hviable.exists_step
  obtain rfl := Option.some.inj (h.after.symm.trans hq')
  rw [q.expects_unplaced] at hlexeme
  exact ⟨⟨r, hfeed⟩, rest', hlexeme⟩

/-- Where nothing stands that is looked for, nothing fits that the text goes on with. -/
theorem Advances.not_viable_of_none {rest cs : List Char} {ts : List Token} {q : Position}
    (h : Advances rest .start cs 0 ts q) {cs' : List Char}
    (hnone : lexeme? q.expects cs' = none) (terminal : Terminal) {text : String}
    (htext : text.toList <+: cs') : ¬ Viable (ts.map Token.form ++ [(terminal, text)]) := by
  intro hviable
  obtain ⟨-, rest', hlexeme⟩ := h.exists_lexeme hviable
  obtain ⟨cs', rfl⟩ := htext
  exact lexeme?_ne_none hlexeme String.length_toList.symm cs' hnone

/-- A token that is looked for and leads nowhere does not fit as another one. -/
theorem Advances.not_viable_of_feed {rest cs : List Char} {ts : List Token} {q : Position}
    (h : Advances rest .start cs 0 ts q) {text cs' : List Char} {terminal : Terminal}
    (hlexeme : lexeme? q.expects (text ++ cs') = some ⟨terminal, text.length⟩)
    (hfeed : q.unplaced.feedForm (terminal, String.ofList text) = none) (other : Terminal) :
    ¬ Viable (ts.map Token.form ++ [(other, String.ofList text)]) := by
  intro hviable
  obtain ⟨⟨r, hr⟩, rest', hother⟩ := h.exists_lexeme hviable
  rw [String.toList_ofList, String.length_ofList] at hother
  obtain rfl : terminal = other := congrArg Lexeme.terminal (lexeme?_unique hlexeme rfl hother rfl)
  rw [hfeed] at hr
  cases hr

/-- Tokens that lead to no complete program are not all the tokens of an accepted text. -/
theorem Advances.not_accepted {rest cs : List Char} {ts : List Token} {q : Position}
    (h : Advances rest .start cs 0 ts q) (hfinish : q.finish? = none) {source : String}
    (hsource : Accepted source) : (Reading.of source).forms ≠ ts.map Token.form := by
  intro hforms
  obtain ⟨q', hq', hcomplete⟩ := hsource.exists_finish
  rw [hforms] at hq'
  obtain rfl := Option.some.inj (h.after.symm.trans hq')
  rw [q.finish?_unplaced, hfinish] at hcomplete
  cases hcomplete

/-- A text that is not read to its end has its fault at the first token that does not fit.

The tokens before the fault start some accepted text, and the fault is where they cannot go
on in this way: what stands there is a token that no accepted text has after them, or a
character that no token starts with; or the text ends and they are not all of an accepted
text. Its line is that of the token or character, or of the last token at the end. -/
theorem Reading.error_first {source : String} {line : Nat} {m : Misfit}
    (h : (Reading.of source).result = .error (line, m)) :
    Program.parse source = .error (.syntax_ line (.misfit m)) ∧
    Viable (Reading.of source).forms ∧
    FirstFault source.toList (Reading.of source).tokens line m ∧
    1 ≤ line ∧ line ≤ 1 + Reading.lineEnds source.toList := by
  obtain ⟨front, rest, ts, q, hsource, hadvances, htokens, hends⟩ :=
    go_ends (p := .start) (lines_lineAt source.toList) 1
  have htokens' : (Reading.of source).tokens = ts.map (Token.reline (lineAt source.toList)) :=
    htokens
  have hforms : (Reading.of source).tokens.map Token.form = ts.map Token.form := forms_eq htokens'
  have hlaid : LaidOut source.toList 0 (Reading.of source).tokens front :=
    htokens' ▸ hadvances.laidOut source.toList
  have hresult : (go (Position.start.reline (lineAt source.toList)) source.toList 1 0 1).result =
      .error (line, m) := h
  rw [hresult, ← htokens'] at hends
  have hfault : FirstFault source.toList (Reading.of source).tokens line m := by
    cases hends with
    | @unfit gap text cs terminal hgap hlexeme hfeed =>
      rw [Nat.zero_add, ← List.length_append]
      refine .token hsource hlaid hgap ⟨_, _, hlexeme⟩ fun other => ?_
      rw [hforms]
      exact hadvances.not_viable_of_feed hlexeme hfeed other
    | @stray gap cs c hgap hnone =>
      rw [Nat.zero_add, ← List.length_append]
      unfold misfit
      split
      · next l hl =>
        have htext := (List.take_append_drop l.length (c :: cs)).symm
        have hlength := List.length_take_of_le (lexeme?_bounds hl).2
        rw [htext] at hsource
        refine .token hsource hlaid hgap
          ⟨.anything, l.terminal, by rw [← htext, hlength]; exact hl⟩ fun terminal => ?_
        rw [hforms]
        refine hadvances.not_viable_of_none hnone terminal ?_
        rw [String.toList_ofList]
        exact List.take_prefix ..
      · refine .character hsource hlaid hgap fun terminal text htext => ?_
        rw [hforms]
        exact hadvances.not_viable_of_none hnone terminal htext
    | short hlayout hfinish =>
      cases hlast : (Reading.of source).tokens.getLast? with
      | none =>
        -- before any token a program is complete
        have hnil := List.getLast?_eq_none_iff.1 hlast
        rw [htokens', List.map_eq_nil_iff] at hnil
        subst hnil
        cases hadvances
        cases hfinish
      | some t =>
        refine .endOfText hsource hlaid hlayout hlast fun source' haccepted => ?_
        rw [hforms]
        exact hadvances.not_accepted hfinish haccepted
  exact ⟨by rw [Program.parse, h], by rw [forms, hforms]; exact hadvances.viable, hfault,
    hfault.line_bounds⟩

/-- A comment, and on the second line an operator with no operand after it. -/
def withoutOperand : String := "class A \x7b int f() \x7b // sum\n return 1 + ; \x7d \x7d"

/-- The fault is at the token after the operator. -/
theorem Reading.error_first_operand :
    (Reading.of withoutOperand).result = .error (2, .token ";") ∧
    Program.parse withoutOperand = .error (.syntax_ 2 (.misfit (.token ";"))) ∧
    FirstFault withoutOperand.toList (Reading.of withoutOperand).tokens 2 (.token ";") := by
  have hfault : (match (Reading.of withoutOperand).result with
      | .error fault => some fault
      | .ok _ => none) = some (2, .token ";") := by
    decide +kernel
  have h : (Reading.of withoutOperand).result = .error (2, .token ";") := by
    split at hfault
    · next heq => rw [heq, Option.some.inj hfault]
    · cases hfault
  obtain ⟨hparse, -, hfirst, -⟩ := error_first h
  exact ⟨h, hparse, hfirst⟩

end IcFront
