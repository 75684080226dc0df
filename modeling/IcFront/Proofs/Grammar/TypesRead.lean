import IcFront.Proofs.Grammar.Account
import IcFront.Proofs.Grammar.Lexemes
import IcFront.Proofs.Mentioned

/-!
# Types that are read

What is known of the types that a program mentions, if it was read from a text. They look
like types (`Program.written_of_parse`): a class name is read as a word with an upper-case
letter in front (`Reading.go_className`), and the marks of a syntax tree are those of the
tokens it was read from (`Program.exists_token_of_parse`). And none of them is void but for
the results of methods (`Program.Lawful.void_types`).

What holds of the type of every local variable holds of all types in a body
(`Stmt.types_of_everywhere`).
-/

namespace IcFront

/-! ## Tokens -/

namespace Reading

/-- Every class name among the tokens of a text can be written. -/
theorem go_className {p : Position} {cs : List Char} {line offset last : Nat} {t : Token}
    (ht : t ∈ (go p cs line offset last).tokens) {className : String}
    (hmark : t.mark = .className className) : Mark.Writable (.className className) := by
  fun_induction go p cs line offset last with
  | case1 => cases ht
  | case2 => cases ht
  | case3 => cases ht
  | case4 => cases ht
  | case5 p _ _ _ _ _ _ _ c rest _ l hl text token q hq ih =>
    rcases List.mem_cons.1 ht with rfl | ht
    · obtain ⟨terminal, n⟩ := l
      cases terminal <;> cases hmark
      obtain ⟨c, rest, htake, hupper, hrest⟩ := lexeme?_className hl rfl
      exact ⟨c, rest, by simpa [token, text] using htake, hupper, hrest⟩
    · exact ih ht

/-- Every name among the tokens of a text is a word. -/
theorem go_name {p : Position} {cs : List Char} {line offset last : Nat} {t : Token}
    (ht : t ∈ (go p cs line offset last).tokens) {name : String} (hmark : t.mark = .name name) :
    ∀ c ∈ name.toList, isWordChar c = true := by
  fun_induction go p cs line offset last with
  | case1 => cases ht
  | case2 => cases ht
  | case3 => cases ht
  | case4 => cases ht
  | case5 p _ _ _ _ _ _ _ c rest _ l hl text token q hq ih =>
    rcases List.mem_cons.1 ht with rfl | ht
    · obtain ⟨terminal, n⟩ := l
      cases terminal <;> cases hmark
      have hword : n = ((c :: rest).takeWhile isWordChar).length := by
        have hlength := congrArg Lexeme.length (lexeme?_name hl rfl)
        rw [wordLexeme] at hlength
        split at hlength <;> exact hlength.symm
      intro d hd
      have hd : d ∈ (c :: rest).takeWhile isWordChar := by
        have htake := List.prefix_iff_eq_take.1 (List.takeWhile_prefix isWordChar (l := c :: rest))
        rw [htake, ← hword]
        simpa [token, text] using hd
      exact List.all_eq_true.1 List.all_takeWhile d hd
    · exact ih ht

end Reading

/-! ## Marks of trees -/

theorem MemberTree.mem_marks_of_separate {m s : MemberTree} (hs : s ∈ m.separate) {x : Mark}
    (hx : x ∈ s.marks) : x ∈ m.marks := by
  cases m with
  | method signature body =>
    obtain rfl := List.mem_singleton.1 hs
    exact hx
  | fields type first further =>
    obtain ⟨w, hw, rfl⟩ := List.mem_map.1 hs
    simp only [marks, List.map_cons, List.map_nil, listed_singleton, List.mem_append,
      List.mem_singleton] at hx ⊢
    rcases hx with (htype | rfl) | rfl
    · exact .inl (.inl htype)
    · have hname : [Mark.name w.text] ∈ (first :: further).map fun w => [Mark.name w.text] :=
        List.mem_map_of_mem hw
      exact .inl (.inr (mem_listed hname (List.mem_singleton_self _)))
    · exact .inr rfl

/-- Arranging the members of a class adds nothing to what its tokens say. -/
theorem ClassTree.mem_marks_of_arranged {c : ClassTree} {x : Mark}
    (hx : x ∈ c.arranged.marks) : x ∈ c.marks := by
  simp only [marks, arranged, List.mem_append, List.mem_cons, List.mem_flatMap] at hx ⊢
  rcases hx with (hheading | rfl | ⟨s, hs, hx⟩) | hbrace
  · exact .inl (.inl hheading)
  · exact .inl (.inr (.inl rfl))
  · obtain ⟨m, hm, hsm⟩ : ∃ m ∈ c.members, s ∈ m.separate := by
      rcases hs with hs | hs <;> exact List.mem_flatMap.1 (List.mem_filter.1 hs).1
    exact .inl (.inr (.inr ⟨m, hm, MemberTree.mem_marks_of_separate hsm hx⟩))
  · exact .inr hbrace

theorem TypeRef.base_mem_marks (t : TypeRef) : t.base.mark ∈ t.marks := List.mem_cons_self

mutual

theorem Stmt.base_mem_marks {type : TypeRef} : ∀ {s : Stmt Expr}, type ∈ s.types →
    type.base.mark ∈ s.marks
  | .localVar _ name initial _, h => by
    rw [types] at h
    obtain rfl := List.mem_singleton.1 h
    cases initial <;> rw [marks] <;> simp [TypeRef.base_mem_marks]
  | .block body _ _, h => by
    rw [types] at h
    rw [marks]
    exact List.mem_append_left _ (List.mem_cons_of_mem _ (base_mem_marksOf h))
  | .ifThen _ body _, h => by
    rw [types] at h
    rw [marks]
    exact List.mem_append_right _ (List.mem_cons_of_mem _ (base_mem_marks h))
  | .ifElse _ body otherwise _, h => by
    rw [types, List.mem_append] at h
    rw [marks]
    rcases h with hbody | hotherwise
    · exact List.mem_append_left _
        (List.mem_append_right _ (List.mem_cons_of_mem _ (base_mem_marks hbody)))
    · exact List.mem_append_right _ (List.mem_cons_of_mem _ (base_mem_marks hotherwise))
  | .while_ _ body _, h => by
    rw [types] at h
    rw [marks]
    exact List.mem_append_right _ (List.mem_cons_of_mem _ (base_mem_marks h))
  | .assign .., h | .call .., h | .return_ .., h | .break_ _, h | .continue_ _, h => by
    rw [types] at h
    exact absurd h List.not_mem_nil

theorem Stmt.base_mem_marksOf {type : TypeRef} : ∀ {ss : List (Stmt Expr)}, type ∈ typesOf ss →
    type.base.mark ∈ marksOf ss
  | [], h => absurd h List.not_mem_nil
  | s :: ss, h => by
    rw [typesOf, List.mem_append] at h
    rw [marksOf]
    rcases h with hfirst | hrest
    · exact List.mem_append_left _ (base_mem_marks hfirst)
    · exact List.mem_append_right _ (base_mem_marksOf hrest)

end

theorem Method.base_mem_marks {m : Method Expr} {type : TypeRef} (h : type ∈ m.types) :
    type.base.mark ∈ m.marks := by
  rw [types, List.mem_cons, List.mem_append] at h
  rw [marks]
  rcases h with rfl | hformal | hlocal
  · simp [TypeRef.base_mem_marks]
  · obtain ⟨f, hf, rfl⟩ := List.mem_map.1 hformal
    have hmem := mem_argumentMarks (List.mem_map_of_mem (f := Formal.marks) hf)
      (List.mem_append_left _ (TypeRef.base_mem_marks f.type))
    simp [hmem]
  · have hmem : type.base.mark ∈ m.form.closing := by
      have hbody := Stmt.base_mem_marksOf hlocal
      cases hform : m.form <;> rw [hform] at hbody
      case library => exact absurd hlocal (by rw [hform]; exact List.not_mem_nil)
      all_goals exact List.mem_append_left _ (List.mem_cons_of_mem _ hbody)
    simp [hmem]

/-- The base of a type that a program mentions is written in it. -/
theorem Program.base_mem_marks {p : Program Expr} {type : TypeRef} (h : type ∈ p.types) :
    type.base.mark ∈ p.marks := by
  obtain ⟨c, hc, h⟩ := List.mem_flatMap.1 h
  refine List.mem_flatMap.2 ⟨c, hc, ?_⟩
  rw [ClassDecl.types, List.mem_append] at h
  rw [ClassDecl.marks]
  rcases h with hfield | hmethod
  · obtain ⟨f, hf, rfl⟩ := List.mem_map.1 hfield
    have hmem : f.type.base.mark ∈ c.fields.flatMap Field.marks :=
      List.mem_flatMap.2 ⟨f, hf, List.mem_append_left _ (TypeRef.base_mem_marks f.type)⟩
    simp [hmem]
  · obtain ⟨m, hm, h⟩ := List.mem_flatMap.1 hmethod
    have hmem : type.base.mark ∈ c.methods.flatMap Method.marks :=
      List.mem_flatMap.2 ⟨m, hm, Method.base_mem_marks h⟩
    simp [hmem]

/-! ## Types in bodies -/

section Everywhere

variable {P : Stmt Expr → Prop} {Q : Expr → Prop} {R : TypeRef → Prop}

mutual

/-- What holds of the type of every local variable holds of all types of a statement. -/
theorem Stmt.types_of_everywhere
    (hP : ∀ type name initial line, P (.localVar type name initial line) → R type) :
    ∀ {s : Stmt Expr}, s.Everywhere P Q → ∀ type ∈ s.types, R type
  | .localVar type name initial line, h => by
    rw [Everywhere] at h
    rw [types, List.forall_mem_singleton]
    exact hP type name initial line h.1
  | .block body _ _, h => by
    rw [Everywhere] at h
    rw [types]
    exact types_of_allEverywhere hP h.2
  | .ifThen _ body _, h => by
    rw [Everywhere] at h
    rw [types]
    exact types_of_everywhere hP h.2.2
  | .ifElse _ body otherwise _, h => by
    rw [Everywhere] at h
    rw [types, List.forall_mem_append]
    exact ⟨types_of_everywhere hP h.2.2.1, types_of_everywhere hP h.2.2.2⟩
  | .while_ _ body _, h => by
    rw [Everywhere] at h
    rw [types]
    exact types_of_everywhere hP h.2.2
  | .assign .., _ | .call .., _ | .return_ .., _ | .break_ _, _ | .continue_ _, _ => by
    rw [types]
    exact List.forall_mem_nil R

theorem Stmt.types_of_allEverywhere
    (hP : ∀ type name initial line, P (.localVar type name initial line) → R type) :
    ∀ {ss : List (Stmt Expr)}, AllEverywhere P Q ss → ∀ type ∈ typesOf ss, R type
  | [], _ => List.forall_mem_nil R
  | s :: ss, h => by
    rw [AllEverywhere] at h
    rw [typesOf, List.forall_mem_append]
    exact ⟨types_of_everywhere hP h.1, types_of_allEverywhere hP h.2⟩

end

end Everywhere

/-- Of the types that a lawful program mentions only results of methods are void. -/
theorem Program.Lawful.void_types {p : Program Expr} (h : p.Lawful) {type : TypeRef} :
    (type ∈ p.types ∧ type.isVoid = true) ↔
      ∃ c ∈ p.classes, ∃ m ∈ c.methods, m.type = type ∧ type.isVoid = true := by
  constructor
  · intro hvoid
    obtain ⟨hmem, hvoid⟩ := hvoid
    obtain ⟨c, hc, hmem⟩ := List.mem_flatMap.mp hmem
    have hne : type.isVoid ≠ false := by rw [hvoid]; exact Bool.noConfusion
    rcases List.mem_append.mp hmem with hfield | hmethod
    · obtain ⟨f, hf, rfl⟩ := List.mem_map.mp hfield
      exact absurd ((h c hc).fields f hf) hne
    · obtain ⟨m, hm, hmem⟩ := List.mem_flatMap.mp hmethod
      rw [Method.types, List.mem_cons, List.mem_append] at hmem
      rcases hmem with rfl | hformal | hlocal
      · exact ⟨c, hc, m, hm, rfl, hvoid⟩
      · obtain ⟨f, hf, rfl⟩ := List.mem_map.mp hformal
        exact absurd (((h c hc).methods m hm).formals f hf) hne
      · have hbody := Stmt.types_of_allEverywhere (R := fun type => type.isVoid = false)
          (fun _ _ _ _ h => h) ((h c hc).methods m hm).body
        exact absurd (hbody type hlocal) hne
  · intro hex
    obtain ⟨c, hc, m, hm, rfl, hvoid⟩ := hex
    refine ⟨List.mem_flatMap.mpr ⟨c, hc, ?_⟩, hvoid⟩
    exact List.mem_append_right _ (List.mem_flatMap.mpr ⟨m, hm, List.mem_cons_self⟩)

/-- The types that a faithful program mentions have no negative dimension. -/
theorem Program.Faithful.dimension_types {p : Program Expr} (h : p.Faithful) :
    ∀ type ∈ p.types, 0 ≤ type.dimension := by
  intro type hmem
  obtain ⟨c, hc, hmem⟩ := List.mem_flatMap.mp hmem
  rcases List.mem_append.mp hmem with hfield | hmethod
  · obtain ⟨f, hf, rfl⟩ := List.mem_map.mp hfield
    exact (h c hc).fields f hf
  · obtain ⟨m, hm, hmem⟩ := List.mem_flatMap.mp hmethod
    have hfaithful := (h c hc).methods m hm
    rw [Method.types, List.mem_cons, List.mem_append] at hmem
    rcases hmem with rfl | hformal | hlocal
    · exact hfaithful.type
    · obtain ⟨f, hf, rfl⟩ := List.mem_map.mp hformal
      exact (hfaithful.formals f hf).1
    · exact Stmt.types_of_allEverywhere (fun _ _ _ _ h => h) hfaithful.body type hlocal

/-! ## Types that are read -/

/-- A type looks like one: its base can be written, and its brackets can be counted. -/
structure TypeRef.Written (t : TypeRef) : Prop where
  base : t.base.mark.Writable
  dimension : 0 ≤ t.dimension

theorem Program.lawful_of_parse {source : String} {p : Program Expr}
    (h : Program.parse source = .ok p) : p.Lawful := by
  unfold Program.parse at h
  split at h
  · exact (ProgramTree.meaning_ok h).2.1
  · cases h

/-- A program that is read is made of the tokens of its text. -/
theorem Program.exists_token_of_parse {source : String} {p : Program Expr}
    (h : Program.parse source = .ok p) {m : Mark} (hm : m ∈ p.marks) :
    ∃ t ∈ (Reading.of source).tokens, t.mark = m := by
  unfold Program.parse at h
  split at h
  · next tree htree =>
    obtain ⟨htokens, -⟩ := Reading.of_account htree
    obtain ⟨rfl, -, hmarks, -⟩ := ProgramTree.meaning_ok h
    rw [← hmarks] at hm
    obtain ⟨c, hc, hm⟩ := List.mem_flatMap.1 hm
    have htoken : m ∈ (Reading.of source).tokens.map Token.mark :=
      htokens ▸ List.mem_flatMap.2 ⟨c, hc, ClassTree.mem_marks_of_arranged hm⟩
    exact List.mem_map.1 htoken
  · cases h

theorem Program.faithful_of_parse {source : String} {p : Program Expr}
    (h : Program.parse source = .ok p) : p.Faithful := by
  unfold Program.parse at h
  split at h
  · next tree htree =>
    obtain ⟨-, hfaithful⟩ := Reading.of_account htree
    obtain ⟨rfl, -⟩ := ProgramTree.meaning_ok h
    intro c hc
    obtain ⟨t, ht, rfl⟩ := List.mem_map.1 hc
    exact ClassTree.decl_faithful (hfaithful t ht)
  · cases h

theorem Program.className_of_parse {source : String} {p : Program Expr}
    (h : Program.parse source = .ok p) {className : String}
    (hm : .className className ∈ p.marks) : Mark.Writable (.className className) := by
  obtain ⟨t, ht, hmark⟩ := Program.exists_token_of_parse h hm
  exact Reading.go_className ht hmark

theorem Program.name_of_parse {source : String} {p : Program Expr}
    (h : Program.parse source = .ok p) {name : String} (hm : .name name ∈ p.marks) :
    ∀ c ∈ name.toList, isWordChar c = true := by
  obtain ⟨t, ht, hmark⟩ := Program.exists_token_of_parse h hm
  exact Reading.go_name ht hmark

/-- The types of a program that is read look like types. -/
theorem Program.written_of_parse {source : String} {p : Program Expr}
    (h : Program.parse source = .ok p) : ∀ type ∈ p.types, type.Written := by
  intro type hmem
  refine ⟨?_, (Program.faithful_of_parse h).dimension_types type hmem⟩
  -- The base of the type is among the marks of the program.
  have hmark := Program.base_mem_marks hmem
  cases hbase : type.base with
  | primitive prim => exact trivial
  | user className =>
    rw [hbase] at hmark
    exact Program.className_of_parse h hmark

end IcFront
