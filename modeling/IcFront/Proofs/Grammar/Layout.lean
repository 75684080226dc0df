import IcFront.Proofs.Grammar.Anchors
import IcFront.Proofs.Grammar.Relaid

/-!
# Layout affects only lines

A text is read as a parse tree with places for lines (`Reads`), where each line is the
place of the token that is its anchor (`Reads.account`). Line numbers come in last: they
are those of the places. So the line of a node is that of its anchor, and a filler before a
token does nothing but move the places of what comes after it (`Program.parse_layout`).

Of the text nothing is passed over but layout: it is its tokens, each at its place, with
fillers between them (`Reads.laidOut`).
-/

namespace IcFront

/-! ## What is read with places -/

namespace Reads

variable {p : Position} {cs : List Char} {offset : Nat} {ts : List Token} {tree : ProgramTree}

/-- The tokens of a text say what its parse tree says, and each line of the tree is that of
the token that is its anchor. -/
theorem account (h : Reads p cs offset ts tree) (hp : p.Faithful) :
    p.marks ++ ts.map Token.mark = tree.flatMap ClassTree.marks ∧
      AllTaken (tree.flatMap ClassTree.anchors) (p.anchors ++ ts.map Token.anchor) := by
  induction h with
  | done hlayout htree =>
    obtain ⟨hmarks, -⟩ := Position.finish?_account htree hp
    rw [← Position.finish?_anchors htree]
    simp [hmarks]
  | token hgap hlayout hlexeme hfeed hrest ih =>
    obtain ⟨hmarks, hq⟩ := (Position.feed_eq_some_iff.1 hfeed).account hp
    obtain ⟨htokens, hanchors⟩ := ih hq
    refine ⟨?_, ?_⟩
    · rw [← htokens, hmarks]
      simp
    · refine hanchors.trans ?_
      rw [List.map_cons, ← List.singleton_append, ← List.append_assoc]
      exact ((Position.feed_eq_some_iff.1 hfeed).anchors hp).append (allTaken_refl _)

/-- A token is found in the text at the place that it has for a line. -/
theorem found (h : Reads p cs offset ts tree) : ∀ t ∈ ts,
    t.line = t.offset ∧ t.text.toList <+: cs.drop (t.offset - offset) := by
  induction h with
  | done => simp
  | @token p q gap text rest offset terminal ts tree hgap hlayout hlexeme hfeed hrest ih =>
    intro t ht
    rcases List.mem_cons.1 ht with rfl | ht
    · simp
    · have hoffset := (hrest.offset_bounds t ht).1
      have hcut : t.offset - offset =
          gap.length + (text.length + (t.offset - (offset + gap.length + text.length))) := by
        omega
      rw [hcut, List.drop_length_add_append, List.drop_length_add_append]
      exact ih t ht

end Reads

/-! ## Lines of places -/

/-- The line of a place in a text: one more than the lines that end before it. -/
def lineAt (source : List Char) (offset : Nat) : Nat :=
  1 + Reading.lineEnds (source.take offset)

theorem lines_lineAt (source : List Char) : Reading.Lines (lineAt source) 1 0 source := fun k => by
  rw [lineAt, Nat.zero_add]

/-- A text put in moves the places after it, and adds to their lines the lines that end
in it. -/
theorem lineAt_insert (cs filler : List Char) {n : Nat} (hn : n ≤ cs.length) (k : Nat) :
    lineAt (cs.take n ++ (filler ++ cs.drop n)) (if n ≤ k then k + filler.length else k) =
      lineAt cs k + if n ≤ k then Reading.lineEnds filler else 0 := by
  have hlength : (cs.take n).length = n := List.length_take_of_le hn
  unfold lineAt
  split
  · next hk =>
    obtain ⟨m, rfl⟩ := Nat.exists_eq_add_of_le hk
    have hnew : n + m + filler.length = (cs.take n).length + (filler.length + m) := by omega
    have hold : cs.take (n + m) = cs.take n ++ (cs.drop n).take m := List.take_add
    rw [hnew, List.take_length_add_append, List.take_length_add_append, hold]
    simp only [Reading.lineEnds_append]
    omega
  · next hk =>
    rw [List.take_append_of_le_length (by omega), List.take_take, Nat.min_eq_left (by omega)]
    rfl

/-! ## Texts laid out as tokens -/

/-- The beginning of a text is some tokens, with a filler before each, and each on the line
that it stands on. -/
inductive LaidOut (source : List Char) : Nat → List Token → List Char → Prop
  | nil {offset : Nat} : LaidOut source offset [] []
  | cons {offset : Nat} {t : Token} {ts : List Token} {gap cs : List Char} (hgap : Filler gap)
    (hoffset : t.offset = offset + gap.length) (hline : t.line = lineAt source t.offset)
    (hrest : LaidOut source (t.offset + t.text.length) ts cs) :
    LaidOut source offset (t :: ts) (gap ++ (t.text.toList ++ cs))

/-- A text is some tokens, with a filler before each, and nothing but layout after them. -/
def IsLaidOut (source : List Char) (ts : List Token) : Prop :=
  ∃ front rest, source = front ++ rest ∧ LaidOut source 0 ts front ∧ layout rest = rest.length

theorem LaidOut.line_eq {source : List Char} {offset : Nat} {ts : List Token} {cs : List Char}
    (h : LaidOut source offset ts cs) : ∀ t ∈ ts, t.line = lineAt source t.offset := by
  induction h with
  | nil => simp
  | cons _ _ hline _ ih => simpa [hline] using ih

/-- A token that has its place for a line, with the line that this place is on. -/
theorem LaidOut.token {source gap text cs : List Char} {offset : Nat} {terminal : Terminal}
    {ts : List Token} (hgap : Filler gap)
    (hrest : LaidOut source (offset + gap.length + text.length) ts cs) :
    LaidOut source offset (Token.reline (lineAt source)
      ⟨terminal, String.ofList text, offset + gap.length, offset + gap.length⟩ :: ts)
      (gap ++ (text ++ cs)) := by
  have hlength : (String.ofList text).length = text.length := String.length_ofList
  have htext : (String.ofList text).toList = text := String.toList_ofList
  rw [← hlength] at hrest
  have hcons := LaidOut.cons (t := Token.reline (lineAt source) ⟨terminal, String.ofList text,
    offset + gap.length, offset + gap.length⟩) hgap rfl rfl hrest
  simp only [Token.reline, htext] at hcons ⊢
  exact hcons

/-- What is read to its end is the tokens that are read, and layout after them. -/
theorem Reads.laidOut {p : Position} {cs : List Char} {offset : Nat} {ts : List Token}
    {tree : ProgramTree} (h : Reads p cs offset ts tree) (source : List Char) :
    ∃ front rest, cs = front ++ rest ∧
      LaidOut source offset (ts.map (Token.reline (lineAt source))) front ∧
      layout rest = rest.length := by
  induction h with
  | @done _ cs _ _ hlayout _ => exact ⟨[], cs, rfl, .nil, hlayout⟩
  | @token _ _ gap text _ _ _ _ _ hgap _ _ _ _ ih =>
    obtain ⟨front, rest, rfl, hlaid, hlayout⟩ := ih
    refine ⟨gap ++ (text ++ front), rest, ?_, .token hgap hlaid, hlayout⟩
    rw [List.append_assoc, List.append_assoc]

/-! ## Trees laid out as tokens -/

/-- A token of a tree is a token of a text: it says the same, and the place of the token is
the line that it is the anchor of, if it is one. -/
def Leaf.At (l : Leaf) (t : Token) : Prop := l.mark = t.mark ∧ ∀ o ∈ l.line, o = t.offset

theorem forall₂_at {ls : List Leaf} {ts : List Token} (hmark : ts.map Token.mark = ls.map Leaf.mark)
    (hline : AllTaken (anchorLines ls) (ts.map Token.anchor))
    (hplace : ∀ t ∈ ts, t.line = t.offset) : List.Forall₂ Leaf.At ls ts := by
  induction ls generalizing ts with
  | nil =>
    cases ts with
    | nil => exact .nil
    | cons t ts => cases hmark
  | cons l ls ih =>
    cases ts with
    | nil => cases hmark
    | cons t ts =>
      obtain ⟨hmark, hmarks⟩ := List.cons.inj hmark
      obtain ⟨hline, hlines⟩ := allTaken_cons.1 hline
      refine .cons ⟨hmark.symm, fun o ho => ?_⟩
        (ih hmarks hlines fun t ht => hplace t (List.mem_cons_of_mem _ ht))
      rw [← hplace t List.mem_cons_self]
      exact (Option.some.inj (hline o ho)).symm

/-- The parse tree of a text that has a syntax tree, with places for lines. -/
theorem Program.parse_places {source : String} {p : Program Expr}
    (h : Program.parse source = .ok p) : ∃ ts tree, Reads .start source.toList 0 ts tree ∧
      (Reading.of source).tokens = ts.map (Token.reline (lineAt source.toList)) ∧
      (Reading.of source).result = .ok (ProgramTree.reline (lineAt source.toList) tree) ∧
      ∃ places, ProgramTree.meaning tree = .ok places ∧
        p = places.reline (lineAt source.toList) := by
  unfold Program.parse at h
  split at h
  · next tree' htree' =>
    obtain ⟨ts, tree, hreads, htokens, rfl⟩ :=
      Reading.go_reads (p := .start) (lines_lineAt source.toList) htree'
    obtain ⟨places, hplaces, hp⟩ := (ProgramTree.meaning_reline _ tree).exists_eq_ok h
    exact ⟨ts, tree, hreads, htokens, htree', places, hplaces, hp⟩
  · cases h

/-- A text that is read with places has a syntax tree if its parse tree has a meaning: the
meaning, with the lines of the places. -/
theorem Program.parse_of_reads {source : List Char} {ts : List Token} {tree : ProgramTree}
    (h : Reads .start source 0 ts tree) {places : Program Expr}
    (hplaces : ProgramTree.meaning tree = .ok places) :
    Program.parse (String.ofList source) = .ok (places.reline (lineAt source)) := by
  have hresult : (Reading.of (String.ofList source)).result =
      .ok (ProgramTree.reline (lineAt source) tree) := by
    rw [Reading.of, String.toList_ofList]
    exact congrArg Reading.result (Reading.go_eq_of_reads (lines_lineAt source) h 1)
  rw [Program.parse, hresult]
  exact (ProgramTree.meaning_reline _ tree).eq_ok hplaces

/-- Layout affects only lines, and lines are those of anchors.

The text is its tokens, with a filler before each and layout after them.

There is a syntax tree with places for lines: each line in it is the number of characters
before the token that is its anchor, or where there is no anchor the line of the first part.
The syntax tree of the text has instead the lines that these places are on.

A filler that starts with a space, put in before any token, gives a text with the same
syntax tree, but that the lines of all anchors from that token on grow by the number of
lines that end in the filler. -/
theorem Program.parse_layout {source : String} {p : Program Expr}
    (h : Program.parse source = .ok p) : ∃ (tree : ProgramTree) (places : Program Expr),
      (Reading.of source).result = .ok (ProgramTree.reline (lineAt source.toList) tree) ∧
      IsLaidOut source.toList (Reading.of source).tokens ∧
      (∀ t ∈ (Reading.of source).tokens, t.text.toList <+: source.toList.drop t.offset ∧
        t.line = lineAt source.toList t.offset) ∧
      List.Forall₂ Leaf.At (tree.flatMap ClassTree.leaves) (Reading.of source).tokens ∧
      places.leaves = tree.flatMap (·.arranged.leaves) ∧ places.Inherits ∧
      p = places.reline (lineAt source.toList) ∧
      ∀ t ∈ (Reading.of source).tokens, ∀ filler, Filler filler → filler.head? = some ' ' →
        Program.parse (String.ofList
            (source.toList.take t.offset ++ (filler ++ source.toList.drop t.offset))) =
          .ok (places.reline fun o => lineAt source.toList o +
            if t.offset ≤ o then Reading.lineEnds filler else 0) := by
  obtain ⟨ts, tree, hreads, htokens, hresult, places, hplaces, hp⟩ := parse_places h
  obtain ⟨hmarks, hanchors⟩ := hreads.account (by simp [Position.start, Position.Faithful])
  have hfound := hreads.found
  obtain ⟨hdecls, -, -, hbodied⟩ := ProgramTree.meaning_ok hplaces
  rw [htokens]
  refine ⟨tree, places, hresult, hreads.laidOut source.toList, ?_, ?_, ?_, ?_, hp, ?_⟩
  · intro t' ht'
    obtain ⟨t, ht, rfl⟩ := List.mem_map.1 ht'
    obtain ⟨hline, htext⟩ := hfound t ht
    exact ⟨htext, congrArg (lineAt source.toList) hline⟩
  · rw [List.forall₂_map_right_iff]
    refine forall₂_at (hmarks.trans ?_) ?_ fun t ht => (hfound t ht).1
    · simp [List.map_flatMap, ClassTree.leaves_mark]
    · rw [anchorLines, List.map_flatMap]
      exact hanchors
  · rw [hdecls, leaves, List.flatMap_map]
    exact List.flatMap_congr fun c hc => (ClassTree.arranged_leaves (hbodied c hc)).symm
  · rw [hdecls]
    intro c hc
    obtain ⟨t, -, rfl⟩ := List.mem_map.1 hc
    exact t.decl_inherits
  · intro t' ht' filler hfiller hspace
    obtain ⟨t, ht, rfl⟩ := List.mem_map.1 ht'
    obtain ⟨-, hle⟩ := hreads.offset_bounds t ht
    obtain ⟨ts', hreads'⟩ := hreads.insert ht hfiller hspace
      (g := fun k => if t.offset ≤ k then k + filler.length else k)
      (fun k hk => if_neg (by omega)) fun k hk => if_pos hk
    have hparse := parse_of_reads hreads' ((ProgramTree.meaning_reline _ tree).eq_ok hplaces)
    rw [Nat.sub_zero, reline_reline] at hparse
    refine hparse.trans (congrArg _ (congrArg (places.reline ·) (funext fun k => ?_)))
    exact lineAt_insert source.toList filler (by omega) k

/-- A class with a line end in the brackets of a type. -/
def onTwoLines : String := "class A \x7b int [\n] f() \x7b return null; \x7d \x7d"

/-- Two comments before a keyword on the second line. -/
theorem Program.parse_layout_comments : ∃ p places : Program Expr,
    Program.parse onTwoLines = .ok p ∧ p = places.reline (lineAt onTwoLines.toList) ∧
    Program.parse "class A \x7b int [\n] f() \x7b  /*\n*///\nreturn null; \x7d \x7d" =
      .ok (places.reline fun o => lineAt onTwoLines.toList o + if 24 ≤ o then 2 else 0) := by
  have hok : (Program.parse onTwoLines).isOk = true := by decide +kernel
  have htoken : (⟨.keyword .return_, "return", 2, 24⟩ : Token) ∈
      (Reading.of onTwoLines).tokens := by
    decide +kernel
  have hfiller : Filler [' ', '/', '*', '\n', '*', '/', '/', '/', '\n'] :=
    .blank (by decide) (.block (show ¬ ['*', '/'] <:+: ['\n'] by decide)
      (.line (show '\n' ∉ [] by decide) .nil))
  have hsource : String.ofList (onTwoLines.toList.take 24 ++
      ([' ', '/', '*', '\n', '*', '/', '/', '/', '\n'] ++ onTwoLines.toList.drop 24)) =
      "class A \x7b int [\n] f() \x7b  /*\n*///\nreturn null; \x7d \x7d" := by
    decide +kernel
  have hends : Reading.lineEnds [' ', '/', '*', '\n', '*', '/', '/', '/', '\n'] = 2 := by decide
  cases hp : Program.parse onTwoLines with
  | ok p =>
    obtain ⟨tree, places, -, -, -, -, -, -, hlines, hinsert⟩ := parse_layout hp
    have hinserted := hinsert _ htoken _ hfiller rfl
    rw [hends] at hinserted
    rw [← hsource]
    exact ⟨p, places, rfl, hlines, hinserted⟩
  | error e =>
    rw [hp] at hok
    cases hok

end IcFront
