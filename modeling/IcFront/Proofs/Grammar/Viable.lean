import IcFront.Proofs.Grammar.Completion
import IcFront.Proofs.Grammar.Layout

/-!
# Starts of accepted texts

The *form* of a token is what it says wherever it stands: its terminal and its text. Forms
are `Viable` if some text is accepted whose tokens start with them.

`Advances` says how the beginning of a text is read, whatever becomes of the rest. What has
been read so is always viable (`Advances.viable`): the rest can be exchanged for a
completion. And where reading goes is decided by forms alone (`Position.after`), so that
what may follow viable forms is what fits where they lead
(`Viable.exists_step`, `exists_finish`).
-/

namespace IcFront

/-- What a token says wherever it stands. -/
abbrev Form := Terminal × String

/-- The form of a token. -/
def Token.form (t : Token) : Form := (t.terminal, t.text)

/-- The forms of the tokens that are read. -/
def Reading.forms (r : Reading) : List Form := r.tokens.map Token.form

/-- A text that is read to its end. -/
def Accepted (source : String) : Prop := ∃ tree, (Reading.of source).result = .ok tree

/-- Forms that the tokens of some accepted text start with. -/
def Viable (forms : List Form) : Prop :=
  ∃ source, Accepted source ∧ forms <+: (Reading.of source).forms

/-! ## Where forms lead -/

namespace Position

/-- A position without places: all lines in it are the same. -/
def unplaced (p : Position) : Position := p.reline fun _ => 0

/-- Where a form leads from a position without places. -/
def feedForm (p : Position) (form : Form) : Option Position := p.feed ⟨form.1, form.2, 0, 0⟩

/-- Where forms lead from a position without places. -/
def after (p : Position) (forms : List Form) : Option Position := forms.foldlM feedForm p

theorem after_cons (p : Position) (form : Form) (forms : List Form) :
    p.after (form :: forms) = (p.feedForm form).bind (·.after forms) :=
  List.foldlM_cons

/-- A token leads, but for places, to where its form leads. -/
theorem feedForm_form (p : Position) (t : Token) :
    p.unplaced.feedForm t.form = (p.feed t).map unplaced :=
  p.feed_reline_at (fun _ => 0) t.terminal t.text t.line t.offset 0

theorem expects_unplaced (p : Position) : p.unplaced.expects = p.expects := p.expects_reline _

theorem finish?_unplaced (p : Position) : p.unplaced.finish?.isSome = p.finish?.isSome := by
  rw [unplaced, finish?_reline, Option.isSome_map]

end Position

/-! ## Reading the beginning of a text -/

/-- The beginning of a text is read from a position, up to the rest, as tokens that lead to
another position. A number of characters comes before the text. The line of a token is the
number of characters before it. -/
inductive Advances (rest : List Char) :
    Position → List Char → Nat → List Token → Position → Prop
  | refl {p : Position} {offset : Nat} : Advances rest p [] offset [] p
  | token {p q r : Position} {gap text cs : List Char} {offset : Nat} {terminal : Terminal}
    {ts : List Token} (hgap : Filler gap) (hlayout : layout (text ++ (cs ++ rest)) = 0)
    (hlexeme : lexeme? p.expects (text ++ (cs ++ rest)) = some ⟨terminal, text.length⟩)
    (hfeed : p.feed ⟨terminal, String.ofList text, offset + gap.length, offset + gap.length⟩ =
      some q)
    (hrest : Advances rest q cs (offset + gap.length + text.length) ts r) :
    Advances rest p (gap ++ (text ++ cs)) offset
      (⟨terminal, String.ofList text, offset + gap.length, offset + gap.length⟩ :: ts) r

namespace Advances

variable {rest : List Char} {p q : Position} {cs : List Char} {offset : Nat} {ts : List Token}

/-- Where a beginning leads is decided by the forms of its tokens. -/
theorem after (h : Advances rest p cs offset ts q) :
    p.unplaced.after (ts.map Token.form) = some q.unplaced := by
  induction h with
  | refl => rfl
  | @token p q r gap text cs offset terminal ts hgap hlayout hlexeme hfeed hrest ih =>
    rw [List.map_cons, Position.after_cons, Position.feedForm_form, hfeed]
    exact ih

/-- A beginning with one more token. -/
theorem snoc {gap text : List Char} (h : Advances (gap ++ (text ++ rest)) p cs offset ts q)
    {r : Position} {terminal : Terminal} (hgap : Filler gap) (hlayout : layout (text ++ rest) = 0)
    (hlexeme : lexeme? q.expects (text ++ rest) = some ⟨terminal, text.length⟩)
    (hfeed : q.feed ⟨terminal, String.ofList text, offset + cs.length + gap.length,
      offset + cs.length + gap.length⟩ = some r) :
    Advances rest p (cs ++ (gap ++ text)) offset
      (ts ++ [⟨terminal, String.ofList text, offset + cs.length + gap.length,
        offset + cs.length + gap.length⟩]) r := by
  induction h with
  | refl =>
    have hone : Advances rest _ (gap ++ (text ++ [])) _ _ _ :=
      token hgap (by simpa using hlayout) (by simpa using hlexeme) hfeed .refl
    simpa using hone
  | @token p q _ gap' text' cs offset terminal' ts hgap' hlayout' hlexeme' hfeed' _ ih =>
    simp only [List.length_append, ← Nat.add_assoc] at ih hfeed ⊢
    have hrest := ih hlexeme hfeed
    rw [List.append_assoc, List.append_assoc]
    exact .token hgap' (by simpa using hlayout') (by simpa using hlexeme') hfeed' hrest

/-- What comes after a beginning can be exchanged for what can be read there, if that
starts with a space. -/
theorem reads (h : Advances rest p cs offset ts q) {rest' : List Char}
    (hspace : rest'.head? = some ' ') {ts' : List Token} {tree : ProgramTree}
    (hrest : Reads q rest' (offset + cs.length) ts' tree) :
    Reads p (cs ++ rest') offset (ts ++ ts') tree := by
  induction h with
  | refl => exact hrest
  | @token p q r gap text cs offset terminal ts hgap hlayout hlexeme hfeed _ ih =>
    have hreads : Reads q (cs ++ rest') (offset + gap.length + text.length) (ts ++ ts') tree := by
      refine ih ?_
      simpa only [List.length_append, Nat.add_assoc] using hrest
    have hakin : Akin (cs ++ rest) (cs ++ rest') := by
      cases cs with
      | nil => exact .inr hspace
      | cons c cs => exact .inl rfl
    obtain ⟨hlayout', hlexeme'⟩ :=
      hreads.follows hlexeme hlayout hakin fun _ hs hwants =>
        Position.feed_operand hfeed hs hwants
    rw [List.append_assoc, List.append_assoc]
    exact .token hgap hlayout' hlexeme' hfeed hreads

end Advances

/-- What is read of a text to its end can be cut after any token. -/
theorem Reads.advances {p : Position} {cs : List Char} {offset : Nat} {ts ts' : List Token}
    {tree : ProgramTree} (h : Reads p cs offset (ts ++ ts') tree) :
    ∃ front rest q, cs = front ++ rest ∧ Advances rest p front offset ts q ∧
      Reads q rest (offset + front.length) ts' tree := by
  induction ts generalizing p cs offset with
  | nil => exact ⟨[], cs, p, rfl, .refl, h⟩
  | cons t ts ih =>
    cases h with
    | @token _ q gap text rest _ terminal _ _ hgap hlayout hlexeme hfeed hrest =>
      obtain ⟨front, rest, r, rfl, hadvances, hreads⟩ := ih hrest
      refine ⟨gap ++ (text ++ front), rest, r, by simp, .token hgap hlayout hlexeme hfeed hadvances,
        ?_⟩
      simpa only [List.length_append, Nat.add_assoc] using hreads

/-! ## Viable forms -/

namespace Reading

/-- The tokens and the tree of an accepted text, with places for lines. -/
theorem exists_reads {source : String} {tree : ProgramTree}
    (h : (Reading.of source).result = .ok tree) : ∃ ts places,
      Reads .start source.toList 0 ts places ∧
      (Reading.of source).tokens = ts.map (Token.reline (lineAt source.toList)) ∧
      tree = ProgramTree.reline (lineAt source.toList) places :=
  go_reads (p := .start) (lines_lineAt source.toList) h

/-- A text that is read with places is accepted, with the same forms. -/
theorem accepted_of_reads {source : List Char} {ts : List Token} {tree : ProgramTree}
    (h : Reads .start source 0 ts tree) :
    Accepted (String.ofList source) ∧
      (Reading.of (String.ofList source)).forms = ts.map Token.form := by
  have hof : Reading.of (String.ofList source) = ⟨ts.map (Token.reline (lineAt source)),
      .ok (ProgramTree.reline (lineAt source) tree)⟩ := by
    rw [Reading.of, String.toList_ofList]
    exact Reading.go_eq_of_reads (lines_lineAt source) h 1
  refine ⟨⟨_, congrArg Reading.result hof⟩, ?_⟩
  rw [forms, hof, List.map_map]
  rfl

theorem forms_eq {source : String} {ts : List Token} {σ : Nat → Nat}
    (h : (Reading.of source).tokens = ts.map (Token.reline σ)) :
    (Reading.of source).forms = ts.map Token.form := by
  rw [forms, h, List.map_map]
  rfl

end Reading

/-- From every position some text after a space is read to its end. -/
theorem Position.exists_reads (q : Position) (offset : Nat) :
    ∃ rest ts tree, rest.head? = some ' ' ∧ Reads q rest offset ts tree := by
  obtain ⟨ms, r, tree, hms, hrun, htree⟩ := (q.reline fun _ => 1).exists_completion
  cases ms with
  | nil =>
    obtain rfl := Option.some.inj hrun
    rw [q.finish?_reline] at htree
    obtain ⟨tree, hfinish, -⟩ := Option.map_eq_some_iff.1 htree
    exact ⟨[' '], [], tree, rfl, .done (by simp [layout_blank, isLayout, layout]) hfinish⟩
  | cons m ms =>
    -- all is written on one line, so that every place is on the first
    have hgo := Reading.go_spaced hms hrun htree (.inl rfl) offset 1
    have hlines : Reading.Lines (fun _ => 1) 1 offset (spaced (m :: ms)) := fun k => by
      have hends : Reading.lineEnds ((spaced (m :: ms)).take k) = 0 := by
        refine List.count_eq_zero.2 fun hmem => ?_
        obtain ⟨m', hm', hmem⟩ := List.mem_flatMap.1 (List.mem_of_mem_take hmem)
        rcases List.mem_cons.1 hmem with h | hmem
        · cases h
        · exact newline_not_mem_spelling (hms m' hm').1 hmem
      rw [hends]
    obtain ⟨ts, places, hreads, -, -⟩ := Reading.go_reads hlines hgo
    exact ⟨_, ts, places, rfl, hreads⟩

/-- Whatever is read of a text from its start is viable. -/
theorem Advances.viable {rest cs : List Char} {ts : List Token} {q : Position}
    (h : Advances rest .start cs 0 ts q) : Viable (ts.map Token.form) := by
  obtain ⟨rest', ts', tree, hspace, hreads⟩ := q.exists_reads (0 + cs.length)
  obtain ⟨haccepted, hforms⟩ := Reading.accepted_of_reads (h.reads hspace hreads)
  exact ⟨_, haccepted, by rw [hforms, List.map_append]; exact List.prefix_append ..⟩

/-- The forms of an accepted text lead to a complete program. -/
theorem Accepted.exists_finish {source : String} (h : Accepted source) :
    ∃ q, Position.start.after (Reading.of source).forms = some q ∧ q.finish?.isSome := by
  obtain ⟨tree, htree⟩ := h
  obtain ⟨ts, places, hreads, htokens, -⟩ := Reading.exists_reads htree
  rw [← List.append_nil ts] at hreads
  obtain ⟨front, rest, q, -, hadvances, hreads⟩ := hreads.advances
  refine ⟨q.unplaced, by rw [Reading.forms_eq htokens]; exact hadvances.after, ?_⟩
  cases hreads with
  | done hlayout hfinish => rw [Position.finish?_unplaced, hfinish]; rfl

/-- A form that viable forms end with is cut off where the ones before it lead, and leads
on from there. -/
theorem Viable.exists_step {forms : List Form} {terminal : Terminal} {text : String}
    (h : Viable (forms ++ [(terminal, text)])) : ∃ q r rest,
      Position.start.after forms = some q ∧ q.feedForm (terminal, text) = some r ∧
      lexeme? q.expects (text.toList ++ rest) = some ⟨terminal, text.length⟩ := by
  obtain ⟨source, ⟨tree, htree⟩, hstart⟩ := h
  obtain ⟨ts, places, hreads, htokens, -⟩ := Reading.exists_reads htree
  rw [Reading.forms_eq htokens] at hstart
  obtain ⟨later, hlater⟩ := hstart
  rw [List.append_assoc] at hlater
  obtain ⟨ts, ts', rfl, rfl, hts'⟩ := List.map_eq_append_iff.1 hlater.symm
  obtain ⟨front, rest, q, -, hadvances, hreads⟩ := hreads.advances
  cases hreads with
  | done => cases hts'
  | @token _ r gap text' rest _ _ ts' _ hgap hlayout hlexeme hfeed hrest =>
    obtain ⟨hform, -⟩ := List.cons.inj hts'
    obtain ⟨rfl, rfl⟩ := Prod.mk.inj hform
    refine ⟨q.unplaced, r.unplaced, rest, hadvances.after, ?_, ?_⟩
    · rw [← hform, Position.feedForm_form, hfeed]
      rfl
    · rw [q.expects_unplaced, String.toList_ofList, String.length_ofList]
      exact hlexeme

end IcFront
