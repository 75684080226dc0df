import IcFront.Proofs.Grammar.ExprAccount

/-!
# Places in a body account for what has been read

What `IcFront.Proofs.Grammar.ExprAccount` says of a place in an expression holds of a
place in a body, with the statements around it: a token adds its mark at the end
(`Body.Leads.account`), and putting complete statements into the braces around them
changes no marks (`Enclosing.settle_marks`).

An `else` goes to the innermost `if` that waits for one. A statement that has just
been read leaves no `if` open, and neither do the statements made of it on the way out
to that `if`: so what stands before an `else` never does (`Enclosing.attachElse?_account`).
-/

namespace IcFront

/-! ## Places in a body -/

namespace StmtTree

theorem marksOf_stmts (ss : List StmtTree) : Stmt.marksOf (stmts ss) = ss.flatMap marks := by
  induction ss with
  | nil => rfl
  | cons s ss ih => rw [stmts, Stmt.marksOf, ih]; rfl

theorem faithful_stmts {ss : List StmtTree} (h : ∀ s ∈ ss, s.Faithful) :
    Stmt.AllEverywhere Stmt.Faithful Expr.Faithful (stmts ss) := by
  induction ss with
  | nil => trivial
  | cons s ss ih =>
    exact ⟨h s List.mem_cons_self, ih fun s hs => h s (List.mem_cons_of_mem _ hs)⟩

end StmtTree

namespace Enclosing

/-- What has been read of a body before a statement, its opening brace included. -/
def marks : Enclosing → List Mark
  | body earlier => .sign .lbrace :: earlier.reverse.flatMap StmtTree.marks
  | block _ earlier outer => outer.marks ++ .sign .lbrace :: earlier.reverse.flatMap StmtTree.marks
  | thenBranch _ condition outer =>
    outer.marks ++ [.keyword .if_, .sign .lparen] ++ condition.marks ++ [.sign .rparen]
  | elseBranch _ condition b outer =>
    outer.marks ++ [.keyword .if_, .sign .lparen] ++ condition.marks ++ .sign .rparen ::
      b.marks ++ [.keyword .else_]
  | loop _ condition outer =>
    outer.marks ++ [.keyword .while_, .sign .lparen] ++ condition.marks ++ [.sign .rparen]

/-- What is kept of a body before a statement is faithful: where an `else` has been
read, no `if` was open inside. -/
def Faithful : Enclosing → Prop
  | body earlier => ∀ s ∈ earlier, s.Faithful
  | block _ earlier outer => (∀ s ∈ earlier, s.Faithful) ∧ outer.Faithful
  | thenBranch _ condition outer => condition.Faithful ∧ outer.Faithful
  | elseBranch _ condition b outer =>
    condition.Faithful ∧ b.Faithful ∧ b.stmt.endsOpen = false ∧ outer.Faithful
  | loop _ condition outer => condition.Faithful ∧ outer.Faithful

/-- Putting a statement into the braces around it changes nothing in what has been
read. -/
theorem settle_marks (s : StmtTree) (e : Enclosing) :
    (e.settle s).marks = e.marks ++ s.marks := by
  induction e generalizing s with
  | body earlier => simp [settle, marks]
  | block line earlier outer _ => simp [settle, marks]
  | thenBranch line condition outer ih =>
    rw [settle, ih]
    simp [marks, StmtTree.marks, StmtTree.stmt, Stmt.marks, ExprTree.marks]
  | elseBranch line condition b outer ih =>
    rw [settle, ih]
    simp [marks, StmtTree.marks, StmtTree.stmt, Stmt.marks, ExprTree.marks]
  | loop line condition outer ih =>
    rw [settle, ih]
    simp [marks, StmtTree.marks, StmtTree.stmt, Stmt.marks, ExprTree.marks]

theorem settle_faithful {s : StmtTree} {e : Enclosing} (hs : s.Faithful) (he : e.Faithful) :
    (e.settle s).Faithful := by
  induction e generalizing s with
  | body earlier => simpa [settle, Faithful] using ⟨hs, he⟩
  | block line earlier outer _ => exact ⟨by simpa using ⟨hs, he.1⟩, he.2⟩
  | thenBranch line condition outer ih => exact ih ⟨trivial, he.1, hs⟩ he.2
  | elseBranch line condition b outer ih =>
    exact ih ⟨he.2.2.1, he.1, he.2.1, hs⟩ he.2.2.2
  | loop line condition outer ih => exact ih ⟨trivial, he.1, hs⟩ he.2

/-- An `else` takes nothing away from what has been read, and goes to an `if` in
which no other is open: the statement before it ends no `if`, nor do those made of
it on the way out. -/
theorem attachElse?_account {s : StmtTree} {e e' : Enclosing} (h : e.attachElse? s = some e')
    (hs : s.Faithful) (hopen : s.stmt.endsOpen = false) (he : e.Faithful) :
    e'.marks = e.marks ++ s.marks ++ [.keyword .else_] ∧ e'.Faithful := by
  induction e generalizing s with
  | body earlier => cases h
  | block line earlier outer _ => cases h
  | thenBranch line condition outer _ =>
    cases h
    exact ⟨by simp [marks], he.1, hs, hopen, he.2⟩
  | elseBranch line condition b outer ih =>
    obtain ⟨hm, hf⟩ := ih h ⟨he.2.2.1, he.1, he.2.1, hs⟩ hopen he.2.2.2
    refine ⟨?_, hf⟩
    rw [hm]
    simp [marks, StmtTree.marks, StmtTree.stmt, Stmt.marks, ExprTree.marks]
  | loop line condition outer ih =>
    obtain ⟨hm, hf⟩ := ih h ⟨trivial, he.1, hs⟩ hopen he.2
    refine ⟨?_, hf⟩
    rw [hm]
    simp [marks, StmtTree.marks, StmtTree.stmt, Stmt.marks, ExprTree.marks]

end Enclosing

namespace Spot

/-- What has been read of a statement up to a place in it. -/
def marks : Spot → List Mark
  | opened | branch => []
  | after s => s.marks
  | breakWord _ => [.keyword .break_]
  | continueWord _ => [.keyword .continue_]
  | returnWord _ => [.keyword .return_]
  | ifWord _ => [.keyword .if_]
  | whileWord _ => [.keyword .while_]
  | className c => [.className c.text]
  | declared type => type.marks
  | declaredName type name => type.marks ++ [.name name.text]
  | expr s => s.marks

/-- What is kept of a statement is faithful, and a complete one leaves no `if` open:
only putting it into its place makes it part of an `if`. -/
def Faithful : Spot → Prop
  | after s => s.Faithful ∧ s.stmt.endsOpen = false
  | declared type | declaredName type _ => 0 ≤ type.dimension
  | expr s => s.Faithful
  | _ => True

end Spot

namespace Body

/-- What has been read of a body. -/
def marks (b : Body) : List Mark := b.enclosing.marks ++ b.spot.marks

/-- What is kept of a body is faithful. -/
def Faithful (b : Body) : Prop := b.enclosing.Faithful ∧ b.spot.Faithful

end Body

namespace BodyStep

/-- What has been read of a body up to where a token leads. -/
def marks : BodyStep → List Mark
  | inside b => b.marks
  | closed statements => bodyMarks (StmtTree.stmts statements)

/-- What is kept of a body is faithful. -/
def Faithful : BodyStep → Prop
  | inside b => b.Faithful
  | closed statements => ∀ s ∈ statements, s.Faithful

end BodyStep

namespace Body

variable {t : Token} {e : Enclosing} {step : BodyStep}

theorem StartLeads.account {b : Body} (h : StartLeads t e b) (he : e.Faithful) :
    b.marks = e.marks ++ [t.mark] ∧ b.Faithful := by
  cases h with
  | declared _ h =>
    obtain ⟨hm, hd⟩ := Token.type?_account h
    exact ⟨by simp [marks, Spot.marks, hm], he, hd⟩
  | expression _ h =>
    obtain ⟨hm, hf⟩ := ExprSpot.start_account h trivial
    exact ⟨by simp [marks, Spot.marks, hm, Pending.marks, Purpose.marks], he, hf⟩
  | block ht =>
    refine ⟨by simp [marks, Spot.marks, Enclosing.marks, Token.mark, ht], ⟨by simp, he⟩, trivial⟩
  | className ht | returnWord ht | ifWord ht | whileWord ht | breakWord ht | continueWord ht =>
    exact ⟨by simp [marks, Spot.marks, Token.mark, Token.word, ht], he, trivial⟩

theorem NextLeads.account (h : NextLeads t e step) (he : e.Faithful) :
    step.marks = e.marks ++ [t.mark] ∧ step.Faithful := by
  cases h with
  | closeBody ht =>
    refine ⟨?_, by simpa [BodyStep.Faithful, Enclosing.Faithful] using he⟩
    simp [BodyStep.marks, bodyMarks, StmtTree.marksOf_stmts, Enclosing.marks, Token.mark, ht]
  | closeBlock ht =>
    refine ⟨?_, he.2, ⟨trivial, StmtTree.faithful_stmts (by simpa using he.1)⟩, rfl⟩
    simp [BodyStep.marks, marks, Spot.marks, StmtTree.marks, StmtTree.stmt, Stmt.marks,
      StmtTree.marksOf_stmts, Enclosing.marks, Token.mark, ht]
  | start h => exact h.account he

theorem ofExprStep_account {step : ExprStep} (he : e.Faithful) (hs : step.Faithful) :
    (ofExprStep e step).marks = e.marks ++ step.marks ∧ (ofExprStep e step).Faithful := by
  cases step with
  | inside s => exact ⟨rfl, he, hs⟩
  | statement s => exact ⟨rfl, he, hs⟩
  | ifBranch line condition | whileBranch line condition =>
    exact ⟨by simp [ofExprStep, marks, Spot.marks, Enclosing.marks, ExprStep.marks],
      ⟨hs, he⟩, trivial⟩

/-- A token in a body adds its mark to what has been read of the body, and leaves it
faithful. -/
theorem Leads.account {b : Body} (h : Leads t b step) (hb : b.Faithful) :
    step.marks = b.marks ++ [t.mark] ∧ step.Faithful := by
  obtain ⟨he, hs⟩ := hb
  cases h with
  | opened h => simpa [marks, Spot.marks] using h.account he
  | branch h => simpa [BodyStep.marks, BodyStep.Faithful, marks, Spot.marks] using h.account he
  | else_ ht h =>
    obtain ⟨hm, hf⟩ := Enclosing.attachElse?_account h hs.1 hs.2 he
    exact ⟨by simp [BodyStep.marks, marks, Spot.marks, hm, Token.mark, ht], hf, trivial⟩
  | after h =>
    have hnext := h.account (Enclosing.settle_faithful hs.1 he)
    rwa [Enclosing.settle_marks] at hnext
  | break_ ht | continue_ ht =>
    refine ⟨?_, he, trivial, rfl⟩
    simp [BodyStep.marks, marks, Spot.marks, StmtTree.marks, StmtTree.stmt, Stmt.marks,
      Token.mark, ht]
  | return_ ht =>
    refine ⟨?_, he, ⟨trivial, by simp⟩, rfl⟩
    simp [BodyStep.marks, marks, Spot.marks, StmtTree.marks, StmtTree.stmt, Stmt.marks,
      Expr.marks?, Token.mark, ht]
  | returned h =>
    obtain ⟨hm, hf⟩ := ExprSpot.start_account h trivial
    exact ⟨by simp [BodyStep.marks, marks, Spot.marks, hm, Pending.marks, Purpose.marks], he, hf⟩
  | ifCondition ht | whileCondition ht | classDot ht =>
    refine ⟨?_, he, trivial⟩
    simp [BodyStep.marks, marks, Spot.marks, ExprSpot.marks, Pending.marks, Purpose.marks,
      Token.mark, ht]
  | classLocalName ht | classBrackets ht =>
    refine ⟨?_, he, by simp [Spot.Faithful]⟩
    simp [BodyStep.marks, marks, Spot.marks, TypeRef.marks, BaseType.mark, Token.mark, Token.word,
      ht]
  | localName ht =>
    exact ⟨by simp [BodyStep.marks, marks, Spot.marks, Token.mark, Token.word, ht], he, hs⟩
  | brackets ht =>
    refine ⟨?_, he, TypeRef.dimension_array hs⟩
    simp [BodyStep.marks, marks, Spot.marks, TypeRef.marks_array hs, Token.mark, ht]
  | initial ht =>
    refine ⟨?_, he, hs⟩
    simp [BodyStep.marks, marks, Spot.marks, ExprSpot.marks, Pending.marks, Purpose.marks,
      Token.mark, ht]
  | localVar ht =>
    refine ⟨?_, he, ⟨hs, by simp⟩, rfl⟩
    simp [BodyStep.marks, marks, Spot.marks, StmtTree.marks, StmtTree.stmt, Stmt.marks,
      Token.mark, ht]
  | expr h =>
    obtain ⟨hm, hf⟩ := h.account hs
    obtain ⟨hm', hf'⟩ := ofExprStep_account he hf
    refine ⟨?_, hf'⟩
    rw [BodyStep.marks, hm', hm]
    simp [marks, Spot.marks]

end Body

end IcFront
