import IcFront.Proofs.Grammar.Account
import IcFront.Proofs.Grammar.ReadBody

/-!
# Reading programs back

What positions make of the marks of declarations (`Position.run`): the marks of a
program lead from the start to where its parse tree is complete (`Position.run_marks`).

A text of marks with spaces between them is cut into those marks wherever a position
expects them (`Reading.go_spaced`). So a lawful and faithful program whose marks can be
written is read back from its source (`Program.parse_written`).
-/

namespace IcFront

namespace Position

/-- Where a mark that is expected leads. -/
def step (p : Position) (m : Mark) : Option Position :=
  if p.expects m.terminal then p.feed m.token else none

/-- Where marks lead, one after the other. -/
def run (p : Position) (ms : List Mark) : Option Position := ms.foldlM step p

theorem run_nil (p : Position) : p.run [] = some p := rfl

theorem run_cons (p : Position) (m : Mark) (ms : List Mark) :
    p.run (m :: ms) = (p.step m).bind (·.run ms) := rfl

theorem run_append (p : Position) (ms ms' : List Mark) :
    p.run (ms ++ ms') = (p.run ms).bind (·.run ms') :=
  List.foldlM_append ..

/-! ## Methods -/

theorem run_body {c : OpenClass} {s : Signature} {b b' : Body} {ms : List Mark}
    (h : b.run ms = some b') : (body c s b).run ms = some (body c s b') := by
  induction ms generalizing b with
  | nil => cases h; rfl
  | cons m ms ih =>
    rw [Body.run_cons] at h
    obtain ⟨b1, hb1, h⟩ := Option.bind_eq_some_iff.1 h
    have hstep : (body c s b).step m = some (body c s b1) := by
      unfold Body.step at hb1
      split at hb1
      · next he =>
        rw [step, if_pos (show (body c s b).expects _ = true from he)]
        split at hb1
        · next hf =>
          cases hb1
          simp [feed, hf, ofBodyStep]
        · cases hb1
      · cases hb1
    rw [run_cons, hstep]
    exact ih h

/-- Statements in braces complete a method. -/
theorem run_bodyMarks {ss : List (Stmt Expr)}
    (hf : Stmt.AllEverywhere Stmt.Faithful Expr.Faithful ss)
    (hl : Stmt.AllEverywhere Stmt.Lawful Expr.Lawful ss) (c : OpenClass) (s : Signature) :
    (signature c s).run (bodyMarks ss) =
      some (members (c.add (.method (close s) (some (Stmt.trees ss))))) := by
  obtain ⟨b, hb, hready, hne⟩ := Body.run_marksOf hf hl (b := ⟨.body [], .opened⟩) rfl (by simp)
  obtain ⟨he, hclose⟩ := Body.feed_close hready hne
  rw [bodyMarks, List.cons_append, run_cons]
  show (body c s ⟨.body [], .opened⟩).run _ = _
  rw [run_append, run_body hb, Option.bind_some, run_cons, step,
    if_pos (show (body c s b).expects _ = true from he), feed, hclose, Body.settleAll_body]
  simp [Body.close, ofBodyStep, run_nil]

/-- A formal parameter is read where one must follow. -/
theorem run_formal {f : Formal} (hd : 0 ≤ f.type.dimension) {p : Position} {c : OpenClass}
    {s : Signature} (hp : p = formals c s ∨ p = formalComma c s) :
    p.run f.marks = some (formalName c { s with formals := f.tree :: s.formals }) := by
  have hstep (t : TypeRef) : (formalType c s t).step .brackets =
      some (formalType c s t.array) := rfl
  have hfirst : p.step f.type.base.mark = some (formalType c s ⟨f.type.base, 0, 1⟩) := by
    rcases hp with rfl | rfl <;>
      cases f.type.base with
      | primitive b => cases b <;> rfl
      | user c => rfl
  rw [Formal.marks, run_append, run, foldlM_type hstep hd hfirst]
  rfl

/-- Formal parameters and a closing parenthesis complete a signature. -/
theorem run_formals {fs : List Formal} (hne : fs ≠ [])
    (hd : ∀ f ∈ fs, 0 ≤ f.type.dimension) {p : Position} {c : OpenClass} {s : Signature}
    (hp : p = formals c s ∨ p = formalComma c s) :
    p.run (listed (fs.map Formal.marks) ++ [.sign .rparen]) =
      some (signature c { s with formals := (fs.map Formal.tree).reverse ++ s.formals }) := by
  induction fs generalizing p s with
  | nil => exact absurd rfl hne
  | cons f fs ih =>
    have hf := run_formal (hd f List.mem_cons_self) hp
    cases fs with
    | nil =>
      rw [List.map_singleton, listed_singleton, run_append, hf]
      rfl
    | cons g gs =>
      have hrest := ih (List.cons_ne_nil g gs) (fun x hx => hd x (List.mem_cons_of_mem _ hx))
        (s := { s with formals := f.tree :: s.formals }) (.inr rfl)
      rw [List.map_cons, List.map_cons, listed_cons_cons, List.append_assoc, run_append, hf,
        Option.bind_some, List.cons_append, run_cons]
      refine hrest.trans ?_
      simp

/-- A parenthesized list of formal parameters completes a signature. -/
theorem run_argumentMarks {fs : List Formal} (hd : ∀ f ∈ fs, 0 ≤ f.type.dimension)
    {p : Position} {c : OpenClass} {s : Signature} (hs : s.formals = [])
    (hp : p.step (.sign .lparen) = some (formals c s)) :
    p.run (argumentMarks (fs.map Formal.marks)) =
      some (signature c { s with formals := (fs.map Formal.tree).reverse }) := by
  rw [argumentMarks, List.cons_append, run_cons, hp, Option.bind_some]
  cases fs with
  | nil =>
    obtain ⟨static, type, w, fs⟩ := s
    obtain rfl : fs = [] := hs
    rfl
  | cons f fs =>
    rw [run_formals (List.cons_ne_nil f fs) hd (.inl rfl), hs, List.append_nil]

/-- The type of a member is read where it must follow. -/
theorem run_memberType {p : Position} {c : OpenClass} (static : Bool) {type : TypeRef}
    (hd : 0 ≤ type.dimension)
    (hp : p = if static then staticWord c else members c) :
    p.run type.marks = some (memberType c static type.onOneLine) := by
  have hstep (t : TypeRef) : (memberType c static t).step .brackets =
      some (memberType c static t.array) := rfl
  refine foldlM_type hstep hd ?_
  subst hp
  cases static <;>
    cases type.base with
    | primitive b => cases b <;> rfl
    | user c => rfl

/-- After its type, the name of a method and its formal parameters complete the
signature. -/
theorem run_signature {fs : List Formal} (hd : ∀ f ∈ fs, 0 ≤ f.type.dimension)
    (c : OpenClass) (static : Bool) (type : TypeRef) (w : String) :
    (memberType c static type).run (.name w :: argumentMarks (fs.map Formal.marks)) =
      some (signature c ⟨static, type, ⟨w, 1⟩, (fs.map Formal.tree).reverse⟩) := by
  cases static with
  | true =>
    exact run_argumentMarks hd (p := staticName c type ⟨w, 1⟩) (s := ⟨true, type, ⟨w, 1⟩, []⟩)
      rfl rfl
  | false =>
    exact run_argumentMarks hd (p := memberName c type ⟨w, 1⟩) (s := ⟨false, type, ⟨w, 1⟩, []⟩)
      rfl rfl

/-- The marks of a method add it to the class that is being read. -/
theorem run_method {m : Method Expr} (hf : m.Faithful) (hl : m.Lawful) (c : OpenClass) :
    (members c).run m.marks = some (members (c.add m.tree)) := by
  have hopening : (members c).run m.form.opening =
      some (if m.form.isStatic then staticWord c else members c) := by
    cases m.form <;> rfl
  have hsignature := run_signature (fun f h => (hf.formals f h).1) c m.form.isStatic
    m.type.onOneLine m.name
  have hclosing (s : Signature) : (signature c s).run m.form.closing =
      some (members (c.add (.method (close s) m.form.trees))) := by
    have hbody := run_bodyMarks hf.body hl.body c s
    cases hform : m.form with
    | library => rfl
    | _ => rw [hform] at hbody; exact hbody
  rw [Method.marks, run_append, List.append_assoc, run_append, hopening, Option.bind_some,
    run_append, run_memberType _ hf.type rfl, Option.bind_some, hsignature, Option.bind_some,
    hclosing]
  simp [close, Method.tree, Method.signature]

/-- The marks of a field add it to the class that is being read. -/
theorem run_field {f : Field} (hd : 0 ≤ f.type.dimension) (c : OpenClass) :
    (members c).run f.marks = some (members (c.add f.tree)) := by
  have htype := run_memberType (p := members c) false hd rfl
  rw [Field.marks, run_append, htype]
  rfl

/-! ## Classes -/

/-- Members that are each added to the class that is being read are added in order. -/
theorem run_members {α : Type} {marks : α → List Mark} {tree : α → MemberTree} {as : List α}
    (h : ∀ a ∈ as, ∀ c, (members c).run (marks a) = some (members (c.add (tree a))))
    (c : OpenClass) :
    (members c).run (as.flatMap marks) =
      some (members { c with members := (as.map tree).reverse ++ c.members }) := by
  induction as generalizing c with
  | nil => rfl
  | cons a as ih =>
    rw [List.flatMap_cons, run_append, h a List.mem_cons_self, Option.bind_some,
      ih fun b hb => h b (List.mem_cons_of_mem _ hb)]
    simp [OpenClass.add]

/-- The marks of a class add it to those that have been read. -/
theorem run_class {d : ClassDecl Expr} (hf : d.Faithful) (hl : d.Lawful)
    (earlier : List ClassTree) :
    (classes earlier).run d.marks = some (classes (d.tree :: earlier)) := by
  have hheading : (classes earlier).run (classHeading d.name d.superclass ++ [.sign .lbrace]) =
      some (members ⟨earlier, ⟨d.name, 1⟩, d.superclass.map (⟨·, 1⟩), []⟩) := by
    cases d.superclass <;> rfl
  have hfields := run_members fun f h c => run_field (hf.fields f h) c
  have hmethods := run_members fun m h c => run_method (hf.methods m h) (hl.methods m h) c
  have hmarks : d.marks = (classHeading d.name d.superclass ++ [.sign .lbrace]) ++
      (d.fields.flatMap Field.marks ++ (d.methods.flatMap Method.marks ++ [.sign .rbrace])) := by
    simp [ClassDecl.marks]
  rw [hmarks, run_append, hheading, Option.bind_some, run_append, hfields, Option.bind_some,
    run_append, hmethods]
  show some (classes (OpenClass.close _)) = _
  simp [OpenClass.close, ClassDecl.tree]

/-- The marks of a program lead to its parse tree. -/
theorem run_marks {p : Program Expr} (hf : p.Faithful) (hl : p.Lawful) :
    start.run p.marks = some (classes p.tree.reverse) := by
  have hclasses (ds : List (ClassDecl Expr)) (earlier : List ClassTree)
      (h : ∀ d ∈ ds, d.Faithful ∧ d.Lawful) :
      (classes earlier).run (ds.flatMap ClassDecl.marks) =
        some (classes ((ds.map ClassDecl.tree).reverse ++ earlier)) := by
    induction ds generalizing earlier with
    | nil => rfl
    | cons d ds ih =>
      obtain ⟨hf, hl⟩ := h d List.mem_cons_self
      rw [List.flatMap_cons, run_append, run_class hf hl, Option.bind_some,
        ih _ fun x hx => h x (List.mem_cons_of_mem _ hx)]
      simp
  exact (hclasses p.classes [] fun d hd => ⟨hf d hd, hl d hd⟩).trans
    (by rw [List.append_nil]; rfl)

end Position

/-! ## Texts -/

namespace Position

/-- A token leads to the same position wherever it stands on its line. -/
theorem feed_offset (p : Position) (m : Mark) (offset : Nat) :
    p.feed ⟨m.terminal, m.spelling, 1, offset⟩ = p.feed m.token := by
  cases p <;> rfl

/-- Where empty brackets are looked for, no closing bracket is looked for after an
opening one: what follows there is the size of an array. -/
theorem expects_lbracket {p q : Position} (h : p.step (.sign .lbracket) = some q)
    (hb : p.expects .brackets = true) : q.expects (.sign .rbracket) = false := by
  unfold step at h
  split at h
  · cases p with
    | body c s b =>
      obtain ⟨enc, spot⟩ := b
      cases spot with
      | expr x => cases x <;> first | (cases hb; done) | (cases h; rfl)
      | _ => first | (cases hb; done) | cases h
    | _ => first | (cases hb; done) | cases h
  · cases h

end Position

/-- Marks as they are written, each with a space before it. -/
def spaced (ms : List Mark) : List Char := ms.flatMap fun m => ' ' :: m.spelling.toList

/-- Joined by spaces, marks lack the space before the first. -/
theorem intercalate_spelling (ms : List Mark) :
    (" ".intercalate (ms.map Mark.spelling)).toList = spaced ms ∨
      ' ' :: (" ".intercalate (ms.map Mark.spelling)).toList = spaced ms := by
  rw [String.toList_intercalate, List.map_map]
  cases ms with
  | nil => exact .inl rfl
  | cons m ms =>
    right
    induction ms generalizing m with
    | nil => simp [spaced]
    | cons m' ms ih =>
      show _ = ' ' :: m.spelling.toList ++ spaced (m' :: ms)
      rw [← ih]
      simp [List.intercalate]

theorem parted_spaced (ms : List Mark) : Parted (spaced ms) := by
  cases ms with
  | nil => exact .inl rfl
  | cons m ms => exact .inr ⟨_, rfl⟩

/-- The end of a text, and any mark but a closing bracket, make no empty brackets with
an opening one before them. -/
theorem emptyBrackets?_spaced {ms : List Mark}
    (h : ∀ m ∈ ms.head?, m.Writable ∧ m ≠ .sign .rbracket) :
    emptyBrackets? (spaced ms) = none := by
  cases ms with
  | nil => rfl
  | cons m ms =>
    obtain ⟨hw, hne⟩ := h m rfl
    obtain ⟨c, cs, hm, hblank, -, hbracket⟩ := Mark.spelling_eq_cons hw
    have hc : c ≠ ']' := fun h => hne (hbracket h)
    show emptyBrackets? (' ' :: m.spelling.toList ++ spaced ms) = none
    simp [emptyBrackets?, hm, hblank, hc, show isBlank ' ' = true by decide]

namespace Reading

/-- A text that starts with a mark, on the first line, is read on after it. -/
theorem go_cons {p q : Position} {m : Mark} {blanks rest : List Char}
    (hblanks : blanks = [] ∨ blanks = [' ']) (hw : m.Writable) (hp : m.Plain)
    (hrest : Parted rest) (hstep : p.step m = some q)
    (hb : m = .sign .lbracket → p.expects .brackets = true → emptyBrackets? rest = none)
    (offset last : Nat) :
    ∃ offset', (go p (blanks ++ (m.spelling.toList ++ rest)) 1 offset last).result =
      (go q rest 1 offset' 1).result := by
  have hlayout : layout (blanks ++ (m.spelling.toList ++ rest)) = blanks.length := by
    rcases hblanks with rfl | rfl
    · exact layout_spelling hw hrest
    · rw [List.singleton_append, layout_space, layout_spelling hw hrest]
      rfl
  have hends : lineEnds blanks = 0 := by rcases hblanks with rfl | rfl <;> rfl
  have hends' : lineEnds m.spelling.toList = 0 :=
    List.count_eq_zero.2 (newline_not_mem_spelling hw)
  have hexpects : p.expects m.terminal = true := by
    unfold Position.step at hstep
    split at hstep
    · assumption
    · cases hstep
  have hfeed : p.feed m.token = some q := by
    rw [Position.step, if_pos hexpects] at hstep
    exact hstep
  obtain ⟨c, cs, hm, -⟩ := Mark.spelling_eq_cons hw
  have hlexeme := lexeme?_spelling hw hp hexpects hrest hb
  have hdrop : (blanks ++ (m.spelling.toList ++ rest)).drop
      (layout (blanks ++ (m.spelling.toList ++ rest))) = m.spelling.toList ++ rest := by
    rw [hlayout, List.drop_left]
  have htake : (blanks ++ (m.spelling.toList ++ rest)).take
      (layout (blanks ++ (m.spelling.toList ++ rest))) = blanks := by
    rw [hlayout, List.take_left]
  -- the text after the blanks starts with the mark, so it does not end here and the mark is read
  rw [go]
  dsimp only
  split
  · next h =>
    rw [hdrop, hm] at h
    cases h
  · next c' cs' h =>
    rw [hdrop] at h
    split
    · next hl =>
      rw [← h, hlexeme] at hl
      cases hl
    · next l hl =>
      rw [← h, hlexeme] at hl
      obtain rfl := Option.some.inj hl
      have htext : (m.spelling.toList ++ rest).take m.spelling.length = m.spelling.toList := by
        rw [← String.length_toList, List.take_left]
      have hafter : (m.spelling.toList ++ rest).drop m.spelling.length = rest := by
        rw [← String.length_toList, List.drop_left]
      simp only [← h, htext, hafter, htake, hends, hends', String.ofList_toList,
        Nat.add_zero, Position.feed_offset, hfeed]
      exact ⟨_, rfl⟩

/-- Marks that lead to a complete program are read as that program where they are
written on the first line, with a space between two. -/
theorem go_spaced {ms : List Mark} {p q : Position} {tree : ProgramTree}
    (hms : ∀ m ∈ ms, m.Writable ∧ m.Plain) (hrun : p.run ms = some q)
    (htree : q.finish? = some tree) {cs : List Char}
    (hcs : cs = spaced ms ∨ ' ' :: cs = spaced ms) (offset last : Nat) :
    (go p cs 1 offset last).result = .ok tree := by
  induction ms generalizing p cs offset last with
  | nil =>
    obtain rfl := Option.some.inj hrun
    obtain rfl : cs = [] := by rcases hcs with h | h; exacts [h, by cases h]
    rw [go]
    dsimp only
    split
    · rw [htree]
    · next h => simp at h
  | cons m ms ih =>
    rw [Position.run_cons] at hrun
    obtain ⟨p', hstep, hrest⟩ := Option.bind_eq_some_iff.1 hrun
    obtain ⟨hw, hp⟩ := hms m List.mem_cons_self
    have hafter : ∀ x ∈ ms, x.Writable ∧ x.Plain := fun x hx => hms x (List.mem_cons_of_mem m hx)
    -- a closing bracket right after an opening one would be read with it as empty brackets; but
    -- where these may stand, no closing bracket follows an opening one
    have hempty (hm : m = .sign .lbracket) (hb : p.expects .brackets = true) :
        emptyBrackets? (spaced ms) = none := by
      subst hm
      have hno := Position.expects_lbracket hstep hb
      refine emptyBrackets?_spaced fun m' hm' =>
        ⟨(hafter m' (List.mem_of_mem_head? hm')).1, ?_⟩
      rintro rfl
      cases ms with
      | nil => cases hm'
      | cons m' ms =>
        cases hm'
        rw [Position.run_cons, Position.step, if_neg (by simp [Mark.terminal, hno])] at hrest
        cases hrest
    obtain ⟨blanks, hblanks, rfl⟩ : ∃ blanks, (blanks = [] ∨ blanks = [' ']) ∧
        cs = blanks ++ (m.spelling.toList ++ spaced ms) := by
      rcases hcs with h | h
      · exact ⟨[' '], .inr rfl, h⟩
      · exact ⟨[], .inl rfl, List.tail_eq_of_cons_eq h⟩
    obtain ⟨offset', hgo⟩ :=
      go_cons hblanks hw hp (parted_spaced ms) hstep hempty offset last
    rw [hgo]
    exact ih hafter hrest (.inl rfl) offset' 1

end Reading

/-- A lawful and faithful program is read back from its source, if its marks can be
written and no string literal in it holds a backslash. -/
theorem Program.parse_written {p : Program Expr} (hf : p.Faithful) (hl : p.Lawful)
    (hw : ∀ m ∈ p.marks, m.Writable) (hp : ∀ m ∈ p.marks, m.Plain) :
    Program.parse p.source = .ok p.onOneLine := by
  have hms : ∀ m ∈ p.marks, m.Writable ∧ m.Plain := fun m hm => ⟨hw m hm, hp m hm⟩
  have hrun := Position.run_marks hf hl
  have htree : (Reading.of p.source).result = .ok p.tree := by
    refine Reading.go_spaced hms hrun ?_ (intercalate_spelling p.marks) 0 1
    rw [Position.finish?, List.reverse_reverse]
  rw [parse, htree]
  exact Program.meaning_tree hl hf hw

/-- A program that assigns a string literal to a variable, twice over with an index. -/
def assigning (value : String) : Program Expr :=
  { classes := [{
      name := "A"
      superclass := none
      fields := [{ type := ⟨.primitive .string, 1, 3⟩, name := "x" }]
      methods := [{
        form := .virtual [.assign (.element (.var "x" 5) (.literal (.integer 0) 5) 5)
          (.literal (.string value) 6) 5]
        type := ⟨.primitive .void, 0, 4⟩
        name := "m"
        formals := [] }] }] }

theorem assigning_marks (value : String) : (assigning value).marks =
    [.keyword .class_, .className "A", .sign .lbrace,
      .keyword .string, .brackets, .name "x", .sign .semicolon,
      .keyword .void, .name "m", .sign .lparen, .sign .rparen, .sign .lbrace,
      .name "x", .sign .lbracket, .integer 0, .sign .rbracket, .sign .assign, .text value,
      .sign .semicolon, .sign .rbrace, .sign .rbrace] := rfl

theorem assigning_shape (value : String) :
    (assigning value).Faithful ∧ (assigning value).Lawful ∧
      ∀ m ∈ (assigning value).marks, m.Writable := by
  refine ⟨?_, ?_, ?_⟩
  · rintro c ⟨⟩
    · refine ⟨by simp, ?_⟩
      rintro m ⟨⟩
      · exact ⟨Int.le_refl 0, by simp, by simp, ⟨trivial, ⟨rfl, trivial, Int.le_refl 0⟩, trivial⟩,
          trivial⟩
      · contradiction
    · contradiction
  · rintro c ⟨⟩
    · refine ⟨by simp [TypeRef.isVoid], ?_⟩
      rintro m ⟨⟩
      · exact ⟨by simp, ⟨rfl, ⟨trivial, trivial, trivial⟩, trivial⟩, trivial⟩
      · contradiction
    · contradiction
  · have hnames : isUpper 'A' = true ∧
        (Keyword.ofText? "x" = none ∧ isLower 'x' = true) ∧
        (Keyword.ofText? "m" = none ∧ isLower 'm' = true) ∧
        (Keyword.ofText? "x" = none ∧ isLower 'x' = true) ∧ (Nat.repr 0).length ≤ maxDigits := by
      decide
    rw [assigning_marks]
    simpa [Mark.Writable] using hnames

/-- A program with a string literal is read back. -/
theorem Program.parse_written_literal :
    Program.parse (assigning "a \"quoted\" text").source =
      .ok (assigning "a \"quoted\" text").onOneLine := by
  obtain ⟨hf, hl, hw⟩ := assigning_shape "a \"quoted\" text"
  refine parse_written hf hl hw ?_
  rw [assigning_marks]
  simp [Mark.Plain]

/-- A backslash in a string literal is written with a second one before it, and the two
are not read. -/
theorem Program.backslash_not_read :
    (assigning "\\").Faithful ∧ (assigning "\\").Lawful ∧
      (∀ m ∈ (assigning "\\").marks, m.Writable) ∧
      ∀ p, Program.parse (assigning "\\").source ≠ .ok p := by
  obtain ⟨hf, hl, hw⟩ := assigning_shape "\\"
  refine ⟨hf, hl, hw, fun p hp => ?_⟩
  have hno : (Program.parse (assigning "\\").source).isOk = false := by decide +kernel
  rw [hp] at hno
  cases hno

end IcFront
