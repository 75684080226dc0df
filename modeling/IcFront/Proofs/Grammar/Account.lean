import IcFront.Proofs.Grammar.BodyAccount

/-!
# Positions account for what has been read

A token adds its mark to what has been read of a program, whatever the position makes
of it (`Position.Leads.account`). So the parse tree of a text that is read to its end
has the marks of the text's tokens, and its tokens show all of it
(`Reading.of_account`).

`Program.exists_tree` says what follows for the syntax tree of a text.
-/

namespace IcFront

/-! ## Places in a program -/

namespace Signature

/-- What has been read of a method before its parenthesis. -/
def head (s : Signature) : List Mark :=
  (if s.static then [.keyword .static] else []) ++ s.type.marks ++ [.name s.name.text]

/-- The formals of a signature that is still being read as marks, in their order. -/
def formalMarks (s : Signature) : List (List Mark) :=
  s.formals.reverse.map fun f => f.formal.marks

/-- The types in a signature have no negative dimension. -/
def Faithful (s : Signature) : Prop :=
  0 ≤ s.type.dimension ∧ ∀ f ∈ s.formals, 0 ≤ f.type.dimension

end Signature

namespace OpenClass

/-- What has been read of a program before a member of a class. -/
def marks (c : OpenClass) : List Mark :=
  c.earlier.reverse.flatMap ClassTree.marks ++
    classHeading c.name.text (c.superclass.map (·.text)) ++
    .sign .lbrace :: c.members.reverse.flatMap MemberTree.marks

/-- What is kept of a program before a member of a class is faithful. -/
def Faithful (c : OpenClass) : Prop :=
  (∀ t ∈ c.earlier, t.Faithful) ∧ ∀ m ∈ c.members, m.Faithful

theorem add_marks (c : OpenClass) (m : MemberTree) : (c.add m).marks = c.marks ++ m.marks := by
  simp [add, marks]

theorem add_faithful {c : OpenClass} {m : MemberTree} (hc : c.Faithful) (hm : m.Faithful) :
    (c.add m).Faithful :=
  ⟨hc.1, by simpa [add] using ⟨hm, hc.2⟩⟩

theorem close_marks (c : OpenClass) :
    c.close.reverse.flatMap ClassTree.marks = c.marks ++ [.sign .rbrace] := by
  simp [close, marks, ClassTree.marks]

theorem close_faithful {c : OpenClass} (hc : c.Faithful) : ∀ t ∈ c.close, t.Faithful := by
  simp only [close, List.mem_cons, forall_eq_or_imp]
  exact ⟨fun m hm => hc.2 m (List.mem_reverse.1 hm), hc.1⟩

end OpenClass

namespace Position

/-- What has been read of a program. -/
def marks : Position → List Mark
  | classes earlier => earlier.reverse.flatMap ClassTree.marks
  | classWord earlier => earlier.reverse.flatMap ClassTree.marks ++ [.keyword .class_]
  | className earlier w => earlier.reverse.flatMap ClassTree.marks ++ classHeading w.text none
  | extendsWord earlier w =>
    earlier.reverse.flatMap ClassTree.marks ++ classHeading w.text none ++ [.keyword .extends_]
  | superclass earlier w parent =>
    earlier.reverse.flatMap ClassTree.marks ++ classHeading w.text (some parent.text)
  | members c => c.marks
  | staticWord c => c.marks ++ [.keyword .static]
  | memberType c static type =>
    c.marks ++ (if static then [.keyword .static] else []) ++ type.marks
  | memberName c type w => c.marks ++ type.marks ++ [.name w.text]
  | staticName c type w => c.marks ++ .keyword .static :: type.marks ++ [.name w.text]
  | fieldComma c type first further =>
    c.marks ++ type.marks ++
      ((first :: further.reverse).map fun w => [Mark.name w.text]).flatMap (· ++ [.sign .comma])
  | fieldName c type first further =>
    c.marks ++ type.marks ++ listed ((first :: further.reverse).map fun w => [.name w.text])
  | formals c s => c.marks ++ s.head ++ [.sign .lparen]
  | formalComma c s =>
    c.marks ++ s.head ++ .sign .lparen :: s.formalMarks.flatMap (· ++ [.sign .comma])
  | formalType c s type =>
    c.marks ++ s.head ++ .sign .lparen :: s.formalMarks.flatMap (· ++ [.sign .comma]) ++
      type.marks
  | formalName c s => c.marks ++ s.head ++ .sign .lparen :: listed s.formalMarks
  | signature c s => c.marks ++ s.head ++ argumentMarks s.formalMarks
  | body c s b => c.marks ++ s.head ++ argumentMarks s.formalMarks ++ b.marks

/-- What is kept at a position is faithful. -/
def Faithful : Position → Prop
  | classes earlier | classWord earlier | className earlier _ | extendsWord earlier _
  | superclass earlier _ _ => ∀ t ∈ earlier, t.Faithful
  | members c | staticWord c => c.Faithful
  | memberType c _ type | memberName c type _ | staticName c type _ | fieldComma c type _ _
  | fieldName c type _ _ => c.Faithful ∧ 0 ≤ type.dimension
  | formals c s => c.Faithful ∧ s.Faithful ∧ s.formals = []
  | formalName c s => c.Faithful ∧ s.Faithful ∧ s.formals ≠ []
  | formalComma c s | signature c s => c.Faithful ∧ s.Faithful
  | formalType c s type => c.Faithful ∧ s.Faithful ∧ 0 ≤ type.dimension
  | body c s b => c.Faithful ∧ s.Faithful ∧ b.Faithful

/-- A method is complete when its body is, or where a semicolon stands for one. -/
theorem method_account {c : OpenClass} {s : Signature} {b : Option (List StmtTree)}
    (hc : c.Faithful) (hs : s.Faithful) (hb : ∀ ss ∈ b, ∀ x ∈ ss, x.Faithful) :
    (members (c.add (.method (close s) b))).marks = c.marks ++ s.head ++
        argumentMarks s.formalMarks ++
        (match b with
          | none => [.sign .semicolon]
          | some ss => bodyMarks (StmtTree.stmts ss)) ∧
      (members (c.add (.method (close s) b))).Faithful := by
  have hformals : (methodOf (close s) b).formals.map Formal.marks = s.formalMarks := by
    simp [methodOf, close, Signature.formalMarks]
  refine ⟨?_, OpenClass.add_faithful hc ⟨hs.1, ?_, ?_, ?_⟩⟩
  · rw [marks, OpenClass.add_marks, MemberTree.marks, hformals]
    cases b with
    | none =>
      cases hst : s.static <;>
        simp [Signature.head, close, methodOf, MethodForm.closing, hst]
    | some ss =>
      cases hst : s.static <;>
        simp [Signature.head, close, methodOf, MethodForm.closing, hst]
  · simpa [methodOf, close, FormalTree.formal] using hs.2
  · intro ss
    cases b with
    | none => simp [methodOf]
    | some ss => cases hst : s.static <;> simp [methodOf, close, hst]
  · cases b with
    | none => exact trivial
    | some ss =>
      have hss := StmtTree.faithful_stmts (hb ss rfl)
      cases hst : s.static <;> simpa [methodOf, close, MethodForm.body, hst] using hss

/-- A token adds its mark to what has been read of a program, and leaves it faithful. -/
theorem Leads.account {t : Token} {p q : Position} (h : Leads t p q) (hp : p.Faithful) :
    q.marks = p.marks ++ [t.mark] ∧ q.Faithful := by
  cases h with
  | class_ ht | extends_ ht | static ht | firstComma ht =>
    exact ⟨by simp [marks, Token.mark, ht], hp⟩
  | className ht | superclass ht =>
    exact ⟨by simp [marks, classHeading, Token.mark, Token.word, ht], hp⟩
  | openClass ht | openSubclass ht =>
    exact ⟨by simp [marks, OpenClass.marks, Token.mark, ht], hp, by simp⟩
  | closeClass ht =>
    refine ⟨?_, OpenClass.close_faithful hp⟩
    rw [marks, OpenClass.close_marks, Token.mark, ht]
    rfl
  | memberType h | staticType h =>
    obtain ⟨hm, hd⟩ := Token.type?_account h
    exact ⟨by simp [marks, hm], hp, hd⟩
  | memberName ht | staticName ht => exact ⟨by simp [marks, Token.mark, Token.word, ht], hp⟩
  | memberBrackets ht =>
    exact ⟨by simp [marks, TypeRef.marks_array hp.2, Token.mark, ht], hp.1,
      TypeRef.dimension_array hp.2⟩
  | virtualFormals ht | staticFormals ht =>
    exact ⟨by simp [marks, Signature.head, Token.mark, ht], hp.1, ⟨hp.2, by simp⟩, rfl⟩
  | field ht | fields ht =>
    exact ⟨by simp [marks, OpenClass.add_marks, MemberTree.marks, Token.mark, ht],
      OpenClass.add_faithful hp.1 hp.2⟩
  | fieldName ht =>
    refine ⟨?_, hp⟩
    simp only [marks]
    rw [List.reverse_cons, ← List.cons_append, List.map_append, List.map_singleton, listed_concat]
    simp [Token.mark, Token.word, ht]
  | furtherComma ht =>
    refine ⟨?_, hp⟩
    rw [marks, marks, ← listed_comma (by simp), Token.mark, ht, List.append_assoc _ _ [_]]
  | noFormals ht =>
    refine ⟨?_, hp.1, hp.2.1⟩
    simp [marks, argumentMarks, Signature.formalMarks, hp.2.2, Token.mark, ht]
  | firstFormal h =>
    obtain ⟨hm, hd⟩ := Token.type?_account h
    exact ⟨by simp [marks, Signature.formalMarks, hp.2.2, hm], hp.1, hp.2.1, hd⟩
  | furtherFormal h =>
    obtain ⟨hm, hd⟩ := Token.type?_account h
    exact ⟨by simp [marks, hm], hp.1, hp.2, hd⟩
  | formalName ht =>
    refine ⟨?_, hp.1, ⟨hp.2.1.1, by simpa using ⟨hp.2.2, hp.2.1.2⟩⟩, by simp⟩
    simp [marks, Signature.formalMarks, listed_concat, Signature.head, FormalTree.formal,
      Formal.marks, Token.mark, Token.word, ht]
  | formalBrackets ht =>
    exact ⟨by simp [marks, TypeRef.marks_array hp.2.2, Token.mark, ht], hp.1, hp.2.1,
      TypeRef.dimension_array hp.2.2⟩
  | formalComma ht =>
    refine ⟨?_, hp.1, hp.2.1⟩
    rw [marks, ← listed_comma (by simpa [Signature.formalMarks] using hp.2.2), marks,
      Token.mark, ht, ← List.cons_append, List.append_assoc _ _ [_]]
  | signature ht => exact ⟨by simp [marks, argumentMarks, Token.mark, ht], hp.1, hp.2.1⟩
  | bodiless ht =>
    rw [Token.mark, ht]
    exact method_account hp.1 hp.2 (by simp)
  | openBody ht =>
    refine ⟨?_, hp.1, hp.2, by simp [Enclosing.Faithful], trivial⟩
    simp [marks, Body.marks, Enclosing.marks, Spot.marks, Token.mark, ht]
  | @body _ _ b step h =>
    obtain ⟨hm, hf⟩ := h.account hp.2.2
    cases step with
    | inside b => exact ⟨by simpa [marks, ofBodyStep, BodyStep.marks] using hm, hp.1, hp.2.1, hf⟩
    | closed ss =>
      obtain ⟨hm', hf'⟩ := method_account hp.1 hp.2.1 (b := some ss) (by rintro _ ⟨⟩; exact hf)
      refine ⟨?_, hf'⟩
      rw [ofBodyStep, hm', marks, List.append_assoc _ b.marks, ← hm]
      rfl

/-- A program that is complete is all that has been read. -/
theorem finish?_account {p : Position} {tree : ProgramTree} (h : finish? p = some tree)
    (hp : p.Faithful) : p.marks = tree.flatMap ClassTree.marks ∧ ∀ c ∈ tree, c.Faithful := by
  cases p with
  | classes earlier =>
    cases h
    exact ⟨rfl, fun c hc => hp c (List.mem_reverse.1 hc)⟩
  | _ => cases h

end Position

/-! ## Texts -/

namespace Reading

/-- A text that is read to its end from a position adds the marks of its tokens to
what has been read before. -/
theorem go_account {p : Position} {cs : List Char} {line offset last : Nat}
    {tree : ProgramTree} (h : (go p cs line offset last).result = .ok tree) (hp : p.Faithful) :
    p.marks ++ (go p cs line offset last).tokens.map Token.mark =
        tree.flatMap ClassTree.marks ∧ ∀ c ∈ tree, c.Faithful := by
  fun_induction go p cs line offset last with
  | case1 p _ _ _ _ _ _ program hfinish =>
    cases h
    simpa using Position.finish?_account hfinish hp
  | case2 => cases h
  | case3 => cases h
  | case4 => cases h
  | case5 p _ _ _ _ _ _ _ c rest _ l _ text token q hq ih =>
    obtain ⟨hm, hf⟩ := (Position.feed_eq_some_iff.1 hq).account hp
    obtain ⟨htokens, htree⟩ := ih h hf
    refine ⟨?_, htree⟩
    rw [← htokens, hm]
    simp [cons, token]

/-- The parse tree of a text has the marks of the text's tokens, and these show all
of it. -/
theorem of_account {source : String} {tree : ProgramTree}
    (h : (of source).result = .ok tree) :
    (of source).tokens.map Token.mark = tree.flatMap ClassTree.marks ∧
      ∀ c ∈ tree, c.Faithful := by
  have hstart : Position.start.Faithful := by simp [Position.start, Position.Faithful]
  exact go_account h hstart

end Reading

/-- The tokens of a text that has a syntax tree show all of it, part by part, and the
tree keeps the rules of the language. -/
theorem Program.exists_tree {source : String} {p : Program Expr}
    (h : Program.parse source = .ok p) :
    ∃ tree : ProgramTree, (Reading.of source).result = .ok tree ∧
      (Reading.of source).tokens.map Token.mark = tree.flatMap ClassTree.marks ∧
      p.marks = tree.flatMap (·.arranged.marks) ∧ p.Faithful ∧ p.Lawful ∧
      ∀ c ∈ tree, ∀ s, .method s none ∈ c.members → s.static = true := by
  unfold Program.parse at h
  split at h
  · next tree htree =>
    obtain ⟨htokens, hfaithful⟩ := Reading.of_account htree
    obtain ⟨rfl, hlawful, hmarks, hbodied⟩ := ProgramTree.meaning_ok h
    refine ⟨tree, htree, htokens, hmarks.symm, ?_, hlawful,
      fun c hc s hs => hbodied c hc _ hs⟩
    intro c hc
    obtain ⟨t, ht, rfl⟩ := List.mem_map.1 hc
    exact ClassTree.decl_faithful (hfaithful t ht)
  · cases h

end IcFront
