import IcFront.Proofs.Grammar.Fillers
import IcFront.Proofs.Grammar.Leads
import IcFront.Proofs.Grammar.RelinedMeaning

/-!
# Texts with more layout

`Reads` says how a text is read with places for lines: each token has for its line the
number of characters before it, and so have the trees that are made of it. What is read
with line numbers is the same, with the line of each place put in (`Reading.go_reads`,
`Reading.go_eq_of_reads`).

A filler that starts with a space, put in before a token, changes no token and no tree but
for their places: those from that token on move by the length of the filler
(`Reads.insert`).
-/

namespace IcFront

/-! ## Where operands must follow -/

namespace Position

/-- A token leads to the same position wherever it stands on its line. -/
theorem feed_reline_at (f : Nat → Nat) (p : Position) (terminal : Terminal) (text : String)
    (line offset offset' : Nat) :
    (p.reline f).feed ⟨terminal, text, f line, offset'⟩ =
      (p.feed ⟨terminal, text, line, offset⟩).map (·.reline f) := by
  rw [← p.feed_reline f]
  cases p <;> rfl

end Position

/-- The signs that an operand must follow, wherever they stand: operators, the equals sign of
an assignment, and the bracket that opens an index or a size. -/
def Sign.wantsOperand : Sign → Bool
  | .lbrace | .rbrace | .lparen | .rparen | .rbracket | .comma | .semicolon | .dot => false
  | _ => true

theorem ExprSpot.start_operand {p : Pending} {t : Token} {s : ExprSpot} (h : start t p = some s)
    {sign : Sign} (ht : t.terminal = .sign sign) (hs : sign.wantsOperand = true) :
    ∃ p', s = .operand p' := by
  obtain ⟨terminal, text, line, offset⟩ := t
  cases ht
  cases sign <;> cases hs <;> cases h <;> exact ⟨_, rfl⟩

theorem Token.terminal_ne_sign {t : Token} {sign other : Sign} (ht : t.terminal = .sign sign)
    (hs : sign.wantsOperand = true) (hother : other.wantsOperand = false) :
    t.terminal ≠ .sign other := by
  rw [ht]
  rintro ⟨⟩
  rw [hs] at hother
  cases hother

theorem ExprSpot.OperatorLeads.wantsOperand {e : ExprTree} {p : Pending} {t : Token}
    {step : ExprStep} (h : OperatorLeads t e p step) {sign : Sign} (ht : t.terminal = .sign sign)
    (hs : sign.wantsOperand = true) : ∃ p', step = .inside (.operand p') := by
  cases h with
  | index | target | binary => exact ⟨_, rfl⟩
  | dot h => exact absurd h (Token.terminal_ne_sign ht hs rfl)
  | close _ h =>
    rcases h.terminal_eq with h | h | h | h <;> exact absurd h (Token.terminal_ne_sign ht hs rfl)

/-- After a sign in an expression that wants an operand one must follow. -/
theorem ExprSpot.Leads.wantsOperand {s : ExprSpot} {t : Token} {step : ExprStep}
    (h : Leads t s step) {sign : Sign} (ht : t.terminal = .sign sign)
    (hs : sign.wantsOperand = true) : ∃ p', step = .inside (.operand p') := by
  cases h with
  | start h | firstArgument h =>
    obtain ⟨p', rfl⟩ := start_operand h ht hs
    exact ⟨p', rfl⟩
  | var h | field h | operator h => exact h.wantsOperand ht hs
  | classSize | size => exact ⟨_, rfl⟩
  | noArguments h | localCall h | virtualCall h | classDot h | staticCall h | newParen h
  | newObject h => exact absurd h (Token.terminal_ne_sign ht hs rfl)
  | member h | length h | classMember h | newClass h | classBrackets h | brackets h =>
    rw [ht] at h
    cases h
  | newType _ h => simp [Token.type?, ht] at h

/-- After a sign that wants an operand one must follow. -/
theorem Position.feed_operand {p q : Position} {t : Token} (h : p.feed t = some q) {s : Sign}
    (ht : t.terminal = .sign s) (hs : s.wantsOperand = true) :
    q.expects = .operand ∧ q.finish? = none := by
  cases p with
  | body c x b =>
    obtain ⟨enc, spot⟩ := b
    obtain ⟨step, hstep, rfl⟩ := Option.map_eq_some_iff.1 h
    cases spot with
    | expr e =>
      obtain ⟨step, hx, rfl⟩ := Option.map_eq_some_iff.1 hstep
      obtain ⟨p, rfl⟩ := (ExprSpot.feed_eq_some_iff.1 hx).wantsOperand ht hs
      exact ⟨rfl, rfl⟩
    | _ =>
      obtain ⟨terminal, text, line, offset⟩ := t
      cases ht
      cases s <;> cases hs <;> cases hstep <;> exact ⟨rfl, rfl⟩
  | _ =>
    obtain ⟨terminal, text, line, offset⟩ := t
    cases ht
    cases s <;> cases hs <;> cases h

/-! ## Reading with places for lines -/

/-- A text is read to its end from a position, as tokens and a parse tree. A number of
characters comes before the text. The line of a token is the number of characters before
it. -/
inductive Reads : Position → List Char → Nat → List Token → ProgramTree → Prop
  | done {p : Position} {cs : List Char} {offset : Nat} {tree : ProgramTree}
    (hlayout : layout cs = cs.length) (htree : p.finish? = some tree) :
    Reads p cs offset [] tree
  | token {p q : Position} {gap text rest : List Char} {offset : Nat} {terminal : Terminal}
    {ts : List Token} {tree : ProgramTree} (hgap : Filler gap) (hlayout : layout (text ++ rest) = 0)
    (hlexeme : lexeme? p.expects (text ++ rest) = some ⟨terminal, text.length⟩)
    (hfeed : p.feed ⟨terminal, String.ofList text, offset + gap.length, offset + gap.length⟩ =
      some q)
    (hrest : Reads q rest (offset + gap.length + text.length) ts tree) :
    Reads p (gap ++ (text ++ rest)) offset
      (⟨terminal, String.ofList text, offset + gap.length, offset + gap.length⟩ :: ts) tree

namespace Reading

/-! ## Lines put in for places -/

theorem lineEnds_append (cs cs' : List Char) :
    lineEnds (cs ++ cs') = lineEnds cs + lineEnds cs' :=
  List.count_append ..

/-- The lines of the places in a text that starts on a line, after a number of characters. -/
def Lines (σ : Nat → Nat) (line offset : Nat) (cs : List Char) : Prop :=
  ∀ k, σ (offset + k) = line + lineEnds (cs.take k)

theorem Lines.append {σ : Nat → Nat} {line offset : Nat} {text cs : List Char}
    (h : Lines σ line offset (text ++ cs)) :
    Lines σ (line + lineEnds text) (offset + text.length) cs := by
  intro k
  rw [Nat.add_assoc offset, h, List.take_length_add_append, lineEnds_append, Nat.add_assoc]

theorem Lines.length {σ : Nat → Nat} {line offset : Nat} {text cs : List Char}
    (h : Lines σ line offset (text ++ cs)) : σ (offset + text.length) = line + lineEnds text := by
  rw [h, List.take_left]

/-- A token after a filler is read, and the text after it on from where it leads. -/
theorem go_token {p q : Position} {gap text rest : List Char} {terminal : Terminal}
    (hgap : Filler gap) (hlayout : layout (text ++ rest) = 0)
    (hlexeme : lexeme? p.expects (text ++ rest) = some ⟨terminal, text.length⟩)
    {line offset : Nat}
    (hfeed : p.feed ⟨terminal, String.ofList text, line + lineEnds gap, offset + gap.length⟩ =
      some q) (last : Nat) :
    go p (gap ++ (text ++ rest)) line offset last =
      cons ⟨terminal, String.ofList text, line + lineEnds gap, offset + gap.length⟩
        (go q rest (line + lineEnds gap + lineEnds text) (offset + gap.length + text.length)
          (line + lineEnds gap)) := by
  have hblank : layout (gap ++ (text ++ rest)) = gap.length := by
    rw [hgap.layout_append, hlayout, Nat.add_zero]
  conv_lhs => rw [go]
  dsimp only
  split
  · next h =>
    rw [hblank, List.drop_left] at h
    rw [h] at hlexeme
    cases hlexeme
  · next c cs h =>
    rw [hblank, List.drop_left] at h
    split
    · next hl =>
      rw [← h, hlexeme] at hl
      cases hl
    · next l hl =>
      rw [← h, hlexeme] at hl
      obtain rfl := Option.some.inj hl
      simp only [← h, hblank, List.take_left, List.drop_left, hfeed]

/-- What a text that is read to its end starts with: layout and nothing more, or a token
after a filler. -/
theorem go_cases {p : Position} {cs : List Char} {line offset last : Nat} {tree : ProgramTree}
    (h : (go p cs line offset last).result = .ok tree) :
    (layout cs = cs.length ∧ p.finish? = some tree ∧
      (go p cs line offset last).tokens = []) ∨
    ∃ gap text rest terminal q, cs = gap ++ (text ++ rest) ∧ text ≠ [] ∧ Filler gap ∧
      layout (text ++ rest) = 0 ∧
      lexeme? p.expects (text ++ rest) = some ⟨terminal, text.length⟩ ∧
      p.feed ⟨terminal, String.ofList text, line + lineEnds gap, offset + gap.length⟩ =
        some q := by
  obtain ⟨gap, cs, rfl, hlength, hlayout, hgap⟩ := exists_filler cs
  rw [go] at h ⊢
  dsimp only at h ⊢
  split at h
  · next hnil =>
    rw [← hlength, List.drop_left] at hnil
    subst hnil
    left
    refine ⟨by rw [← hlength, List.append_nil], ?_⟩
    cases hfinish : p.finish? with
    | none => rw [hfinish] at h; cases h
    | some program => rw [hfinish] at h; cases h; exact ⟨rfl, rfl⟩
  · next c cs' hcons =>
    right
    rw [← hlength, List.drop_left] at hcons
    subst hcons
    split at h
    · cases h
    · next l hl =>
      have htext := List.take_append_drop l.length (c :: cs')
      have htextLength := List.length_take_of_le (lexeme?_bounds hl).2
      have hpos := (lexeme?_bounds hl).1
      rw [← hlength, List.take_left] at h
      split at h
      · cases h
      · next q hq =>
        refine ⟨gap, (c :: cs').take l.length, (c :: cs').drop l.length, l.terminal, q, ?_, ?_,
          hgap (List.cons_ne_nil c cs'), ?_, ?_, hq⟩
        · rw [htext]
        · exact List.ne_nil_of_length_pos (by omega)
        · rwa [htext]
        · rw [htext, htextLength]
          exact hl

/-- What is read with line numbers is read with places, and each line is that of the
place. -/
theorem go_reads {σ : Nat → Nat} {p : Position} {cs : List Char} {line offset last : Nat}
    {tree : ProgramTree} (hσ : Lines σ line offset cs)
    (h : (go (p.reline σ) cs line offset last).result = .ok tree) :
    ∃ ts places, Reads p cs offset ts places ∧
      (go (p.reline σ) cs line offset last).tokens = ts.map (Token.reline σ) ∧
      tree = ProgramTree.reline σ places := by
  induction hlength : cs.length using Nat.strongRecOn generalizing p cs line offset last with
  | ind n ih =>
    rcases go_cases h with ⟨hlayout, hfinish, htokens⟩ |
      ⟨gap, text, rest, terminal, q', rfl, htext, hgap, hlayout, hlexeme, hfeed⟩
    · rw [p.finish?_reline] at hfinish
      obtain ⟨places, hplaces, rfl⟩ := Option.map_eq_some_iff.1 hfinish
      exact ⟨[], places, .done hlayout hplaces, htokens, rfl⟩
    · have hgo := go_token hgap hlayout hlexeme hfeed last
      rw [← hσ.length, p.feed_reline_at σ _ _ _ (offset + gap.length)] at hfeed
      obtain ⟨q, hq, rfl⟩ := Option.map_eq_some_iff.1 hfeed
      have hrest : rest.length < n := by
        have := List.length_pos_of_ne_nil htext
        rw [← hlength, List.length_append, List.length_append]
        omega
      rw [hgo] at h ⊢
      obtain ⟨ts, places, hreads, htokens, htree⟩ := ih _ hrest hσ.append.append h rfl
      rw [p.expects_reline] at hlexeme
      refine ⟨_, places, .token hgap hlayout hlexeme hq hreads, ?_, htree⟩
      rw [cons, htokens, ← hσ.length]
      rfl

/-- What is read with places is read with line numbers, the line of each place put in. -/
theorem go_eq_of_reads {σ : Nat → Nat} {p : Position} {cs : List Char} {line offset : Nat}
    {ts : List Token} {places : ProgramTree} (hσ : Lines σ line offset cs)
    (h : Reads p cs offset ts places) (last : Nat) : go (p.reline σ) cs line offset last =
      ⟨ts.map (Token.reline σ), .ok (ProgramTree.reline σ places)⟩ := by
  induction h generalizing line last with
  | @done p cs offset tree hlayout htree =>
    rw [go]
    dsimp only
    split
    · rw [p.finish?_reline, htree]
      rfl
    · next h =>
      rw [hlayout, List.drop_length] at h
      cases h
  | @token p q gap text rest offset terminal ts tree hgap hlayout hlexeme hfeed hrest ih =>
    have hfeed' := p.feed_reline_at σ terminal (String.ofList text) (offset + gap.length)
      (offset + gap.length) (offset + gap.length)
    rw [hfeed, hσ.length] at hfeed'
    rw [← p.expects_reline σ] at hlexeme
    rw [go_token hgap hlayout hlexeme hfeed' last,
      ih hσ.append.append (line + lineEnds gap), ← hσ.length]
    rfl

end Reading

/-! ## More layout -/

namespace Reads

variable {p : Position} {cs : List Char} {offset : Nat} {ts : List Token} {tree : ProgramTree}

/-- Tokens stand in the text that they are read from. -/
theorem offset_bounds (h : Reads p cs offset ts tree) :
    ∀ t ∈ ts, offset ≤ t.offset ∧ t.offset ≤ offset + cs.length := by
  induction h with
  | done => simp
  | token _ _ _ _ _ ih =>
    simp only [List.mem_cons, forall_eq_or_imp, List.length_append]
    refine ⟨⟨by omega, by omega⟩, fun t ht => ?_⟩
    have := ih t ht
    omega

/-- A text that stands elsewhere is read with other places. -/
theorem move (h : Reads p cs offset ts tree) {g : Nat → Nat} {n : Nat}
    (hg : ∀ k, offset ≤ k → g k = k + n) :
    ∃ ts', Reads (p.reline g) cs (offset + n) ts' (ProgramTree.reline g tree) := by
  induction h with
  | @done p cs offset tree hlayout htree =>
    exact ⟨[], .done hlayout (by rw [p.finish?_reline, htree]; rfl)⟩
  | @token p q gap text rest offset terminal ts tree hgap hlayout hlexeme hfeed hrest ih =>
    obtain ⟨ts', hreads⟩ := ih fun k hk => hg k (by omega)
    have hplace : g (offset + gap.length) = offset + n + gap.length := by
      rw [hg _ (Nat.le_add_right ..)]
      omega
    have hfeed' := p.feed_reline_at g terminal (String.ofList text) (offset + gap.length)
      (offset + gap.length) (offset + n + gap.length)
    rw [hfeed, hplace] at hfeed'
    rw [← p.expects_reline g] at hlexeme
    refine ⟨_ :: ts', .token hgap hlayout hlexeme hfeed' ?_⟩
    rw [show offset + n + gap.length + text.length = offset + gap.length + text.length + n by
      omega]
    exact hreads

/-- Where a closing bracket does not fit, none closes empty brackets. -/
theorem emptyBrackets?_eq_none (h : Reads p cs offset ts tree)
    (hp : p.expects (.sign .rbracket) = false) (hfinish : p.finish? = none) :
    emptyBrackets? cs = none := by
  cases h with
  | done hlayout htree => rw [hfinish] at htree; cases htree
  | @token _ _ gap text rest _ terminal ts _ hgap hlayout hlexeme hfeed hrest =>
    refine hgap.emptyBrackets?_append _ ?_
    cases hcs : text ++ rest with
    | nil => rfl
    | cons c cs =>
      rw [hcs] at hlexeme
      obtain ⟨hblank, hclose, -⟩ := head_of_lexeme? hlexeme
      rw [hp] at hclose
      rw [emptyBrackets?_cons, if_neg (by simp [hblank]), if_neg fun hc => nomatch hclose hc]

/-- Where a star does not fit, none comes next. -/
theorem head?_ne_star (h : Reads p cs offset ts tree)
    (hp : p.expects (.sign .star) = false) (hfinish : p.finish? = none) :
    cs.head? ≠ some '*' := by
  cases h with
  | done hlayout htree => rw [hfinish] at htree; cases htree
  | @token _ _ gap text rest _ terminal ts _ hgap hlayout hlexeme hfeed hrest =>
    cases hgap with
    | nil =>
      rw [List.nil_append]
      intro hhead
      obtain ⟨cs, hcs⟩ := List.head?_eq_some_iff.1 hhead
      rw [hcs] at hlexeme
      have hstar := (head_of_lexeme? hlexeme).2.2.1 rfl
      rw [hp] at hstar
      cases hstar
    | blank hc _ =>
      rintro ⟨⟩
      cases hc
    | line | block => simp

/-- A token stays what it is when another text is read after it. -/
theorem follows (h : Reads p cs' offset ts tree) {expected : Expectation} {text cs : List Char}
    {terminal : Terminal} (hlexeme : lexeme? expected (text ++ cs) = some ⟨terminal, text.length⟩)
    (hlayout : layout (text ++ cs) = 0) (hakin : Akin cs cs')
    (hoperand : ∀ s, terminal = .sign s → s.wantsOperand = true →
      p.expects = .operand ∧ p.finish? = none) :
    layout (text ++ cs') = 0 ∧
      lexeme? expected (text ++ cs') = some ⟨terminal, text.length⟩ := by
  refine ⟨layout_akin hlexeme rfl hlayout hakin fun hs => ?_,
    lexeme?_akin hlexeme rfl hakin fun hs _ => ?_⟩
  · obtain ⟨he, hf⟩ := hoperand _ hs rfl
    exact h.head?_ne_star (by rw [he]; rfl) hf
  · obtain ⟨he, hf⟩ := hoperand _ hs rfl
    exact h.emptyBrackets?_eq_none (by rw [he]; rfl) hf

/-- A space that is put in somewhere comes first, or changes nothing at the start. -/
theorem akin_insert {filler : List Char} (hspace : filler.head? = some ' ') (cs : List Char)
    (k : Nat) : Akin cs (cs.take k ++ (filler ++ cs.drop k)) := by
  cases k with
  | zero => exact .inr (by simp [hspace])
  | succ k =>
    cases cs with
    | nil => exact .inr (by simp [hspace])
    | cons c cs => exact .inl rfl

/-- A filler that starts with a space may stand before any token. It only moves the token
and what comes after it. -/
theorem insert (h : Reads p cs offset ts tree) {t : Token} (ht : t ∈ ts) {filler : List Char}
    (hfiller : Filler filler) (hspace : filler.head? = some ' ') {g : Nat → Nat}
    (hbefore : ∀ k, k < t.offset → g k = k) (hafter : ∀ k, t.offset ≤ k → g k = k + filler.length) :
    ∃ ts', Reads (p.reline g)
      (cs.take (t.offset - offset) ++ (filler ++ cs.drop (t.offset - offset))) offset ts'
      (ProgramTree.reline g tree) := by
  induction h with
  | done => cases ht
  | @token p q gap text rest offset terminal ts tree hgap hlayout hlexeme hfeed hrest ih =>
    rcases List.mem_cons.1 ht with rfl | ht
    -- the filler goes to the end of what stands before this token
    · have hlength : (gap ++ filler).length = gap.length + filler.length := List.length_append
      obtain ⟨ts', hreads⟩ := hrest.move (n := filler.length) fun k hk =>
        hafter k (Nat.le_trans (Nat.le_add_right ..) hk)
      have hfeed' := p.feed_reline_at g terminal (String.ofList text) (offset + gap.length)
        (offset + gap.length) (offset + (gap ++ filler).length)
      rw [hfeed, hafter _ (Nat.le_refl _), Nat.add_assoc, ← hlength] at hfeed'
      rw [← p.expects_reline g] at hlexeme
      rw [Nat.add_sub_cancel_left, List.take_left, List.drop_left, ← List.append_assoc]
      refine ⟨_ :: ts', .token (hgap.append hfiller) hlayout hlexeme hfeed' ?_⟩
      rw [hlength, show offset + (gap.length + filler.length) + text.length =
        offset + gap.length + text.length + filler.length by omega]
      exact hreads
    -- the filler goes somewhere behind: this token stays, but another text follows it
    · have hoffset := (hrest.offset_bounds t ht).1
      have hpos : 0 < text.length := (lexeme?_bounds hlexeme).1
      obtain ⟨ts', hreads⟩ := ih ht
      have hcut : t.offset - offset =
          gap.length + (text.length + (t.offset - (offset + gap.length + text.length))) := by
        omega
      generalize t.offset - (offset + gap.length + text.length) = k at hcut hreads
      have hakin := akin_insert hspace rest k
      rw [hcut, List.take_length_add_append, List.take_length_add_append,
        List.drop_length_add_append, List.drop_length_add_append, List.append_assoc,
        List.append_assoc]
      generalize hrest' : rest.take k ++ (filler ++ rest.drop k) = rest' at hakin hreads ⊢
      have hoperand (s : Sign) (hs : terminal = .sign s) (hwants : s.wantsOperand = true) :
          (q.reline g).expects = .operand ∧ (q.reline g).finish? = none := by
        obtain ⟨he, hf⟩ := Position.feed_operand hfeed hs hwants
        exact ⟨by rw [q.expects_reline, he], by rw [q.finish?_reline, hf]; rfl⟩
      obtain ⟨hlayout', hlexeme'⟩ := hreads.follows hlexeme hlayout hakin hoperand
      have hfeed' := p.feed_reline_at g terminal (String.ofList text) (offset + gap.length)
        (offset + gap.length) (offset + gap.length)
      rw [hfeed, hbefore _ (by omega)] at hfeed'
      rw [← p.expects_reline g] at hlexeme'
      exact ⟨_ :: ts', .token hgap hlayout' hlexeme' hfeed' hreads⟩

end Reads

end IcFront
