import IcFront.Proofs.Grammar.Leads
import IcFront.Proofs.Grammar.Trees

/-!
# Places in an expression account for what has been read

A place in an expression keeps all that has been read of the statement: written out
as marks, outermost construct first, it is the marks of the tokens so far, in their
order. And what it keeps is *faithful*: complete trees are, and an operator waits
only where those around it bind less tightly, so that every tree it will be part of
is faithful too (`Pending.floor`).

The one step that matters is `ExprSpot.Leads.account`: a token adds its mark at the
end, whatever is made of it, and leaves the place faithful. Operators that are applied
between tokens change no marks (`Pending.apply_marks`).
-/

namespace IcFront

/-! ## Types and operators -/

theorem Token.type?_account {t : Token} {type : TypeRef} (h : t.type? = some type) :
    type.marks = [t.mark] ∧ 0 ≤ type.dimension := by
  unfold Token.type? at h
  split at h <;> cases h <;>
    simp [TypeRef.marks, BaseType.mark, Primitive.keyword, Token.mark, *]

theorem TypeRef.marks_array {type : TypeRef} (h : 0 ≤ type.dimension) :
    type.array.marks = type.marks ++ [.brackets] := by
  have hsucc : (type.dimension + 1).toNat = type.dimension.toNat + 1 := by omega
  simp [marks, array, hsucc, List.replicate_succ']

theorem TypeRef.dimension_array {type : TypeRef} (h : 0 ≤ type.dimension) :
    0 ≤ type.array.dimension := by
  show 0 ≤ type.dimension + 1
  omega

/-! ## Operands -/

namespace ExprTree

/-- How tightly the expression that a parse tree is binds. -/
def level (e : ExprTree) : Nat := e.expr.level

/-- The tokens of a parse tree show all of it. -/
def Faithful (e : ExprTree) : Prop := e.expr.Everywhere Expr.Faithful

theorem faithful_exprs {es : List ExprTree} (h : ∀ e ∈ es, e.Faithful) :
    Expr.AllEverywhere Expr.Faithful (exprs es) := by
  rw [Expr.allEverywhere_iff, exprs_eq_map]
  simpa [Faithful] using h

end ExprTree

/-- What has been read of a statement before the expression in it. -/
def Purpose.marks : Purpose → List Mark
  | statement => []
  | assigned target => target.marks ++ [.sign .assign]
  | initial type name => type.marks ++ [.name name.text, .sign .assign]
  | returned _ => [.keyword .return_]
  | ifCondition _ => [.keyword .if_, .sign .lparen]
  | whileCondition _ => [.keyword .while_, .sign .lparen]

/-- What has been read of a statement before the expression in it is faithful. -/
def Purpose.Faithful : Purpose → Prop
  | assigned target => target.Faithful
  | initial type _ => 0 ≤ type.dimension
  | _ => True

namespace Callee

/-- What has been read of a call before its parenthesis. -/
def marks : Callee → List Mark
  | .static c w => [.className c.text, .sign .dot, .name w.text]
  | .virtual receiver w => receiver.marks ++ [.sign .dot, .name w.text]
  | .local w => [.name w.text]

/-- The receiver of a call, if it has one, is faithful and needs no parentheses. -/
def Faithful : Callee → Prop
  | .virtual receiver _ => receiver.Faithful ∧ receiver.level = 7
  | _ => True

theorem call_marks (c : Callee) (arguments : List ExprTree) :
    (c.call arguments).marks = c.marks ++ argumentMarks (arguments.map ExprTree.marks) := by
  have hargs : Expr.marksOf (ExprTree.exprs arguments) = arguments.map ExprTree.marks := by
    rw [Expr.marksOf_eq_map, ExprTree.exprs_eq_map, List.map_map]
    rfl
  cases c <;> simp [call, marks, ExprTree.marks, ExprTree.expr, Expr.marks, hargs]

theorem call_level (c : Callee) (arguments : List ExprTree) : (c.call arguments).level = 7 := by
  cases c <;> rfl

theorem call_faithful {c : Callee} {arguments : List ExprTree} (hc : c.Faithful)
    (ha : ∀ e ∈ arguments, e.Faithful) : (c.call arguments).Faithful := by
  have ha := ExprTree.faithful_exprs ha
  cases c with
  | static c w => exact ⟨trivial, ha⟩
  | virtual receiver w => exact ⟨hc.2, hc.1, ha⟩
  | «local» w => exact ⟨trivial, ha⟩

end Callee

namespace Pending

/-- What has been read of a statement before an operand. -/
def marks : Pending → List Mark
  | bottom purpose => purpose.marks
  | unary op _ outer => outer.marks ++ [.sign op.sign]
  | binary left op _ outer => outer.marks ++ left.marks ++ [.sign op.sign]
  | paren outer => outer.marks ++ [.sign .lparen]
  | index array outer => outer.marks ++ array.marks ++ [.sign .lbracket]
  | argument callee earlier outer =>
    outer.marks ++ callee.marks ++ .sign .lparen ::
      (earlier.reverse.map ExprTree.marks).flatMap (· ++ [.sign .comma])
  | size _ element outer =>
    outer.marks ++ .keyword .new :: element.marks ++ [.sign .lbracket]

/-- How tightly an operand must bind to stand where it is read. -/
def floor : Pending → Nat
  | unary .. => 6
  | binary _ op _ _ => op.level + 1
  | _ => 0

/-- What has been read before an operand is faithful, and each operator that waits
may be an operand of the one around it. -/
def Faithful : Pending → Prop
  | bottom purpose => purpose.Faithful
  | unary _ _ outer => outer.Faithful
  | binary left op _ outer =>
    left.Faithful ∧ op.level ≤ left.level ∧ outer.floor ≤ op.level ∧ outer.Faithful
  | paren outer => outer.Faithful
  | index array outer => array.Faithful ∧ array.level = 7 ∧ outer.Faithful
  | argument callee earlier outer =>
    callee.Faithful ∧ (∀ e ∈ earlier, e.Faithful) ∧ outer.Faithful
  | size _ element outer => 0 ≤ element.dimension ∧ outer.Faithful

/-- Applying operators that wait changes nothing in what has been read. -/
theorem apply_marks (level : Nat) (e : ExprTree) (p : Pending) :
    (p.apply level e).2.marks ++ (p.apply level e).1.marks = p.marks ++ e.marks := by
  induction p generalizing e with
  | unary op line outer ih =>
    rw [apply, ih]
    simp [marks, ExprTree.marks, ExprTree.expr, Expr.marks]
  | binary left op line outer ih =>
    rw [apply]
    split
    · rw [ih]
      simp [marks, ExprTree.marks, ExprTree.expr, Expr.marks]
    · rfl
  | _ => rfl

theorem level_le_five (op : BinaryOp) : op.level ≤ 5 := by cases op <;> decide

theorem floor_le_six (p : Pending) : p.floor ≤ 6 := by
  cases p with
  | binary left op line outer => have := level_le_five op; simp only [floor]; omega
  | _ => simp [floor]

/-- What operators make of an operand that may stand where it is read is faithful.
It binds at least as tightly as the operators that were to be applied, and may stand
where those that still wait want an operand. -/
theorem apply_faithful (level : Nat) {e : ExprTree} {p : Pending} (he : e.Faithful)
    (hfloor : p.floor ≤ e.level) (hlevel : level ≤ e.level) (hp : p.Faithful)
    (hle : level ≤ 6) :
    (p.apply level e).1.Faithful ∧ level ≤ (p.apply level e).1.level ∧
      (p.apply level e).2.Faithful ∧ (p.apply level e).2.floor ≤ level := by
  induction p generalizing e with
  | unary op line outer ih =>
    exact ih ⟨hfloor, he⟩ (floor_le_six outer) hle hp
  | binary left op line outer ih =>
    obtain ⟨hleft, hopleft, hop, houter⟩ := hp
    rw [apply]
    split
    · next h => exact ih ⟨⟨hopleft, hfloor⟩, hleft, he⟩ hop h houter
    · next h =>
      refine ⟨he, hlevel, ⟨hleft, hopleft, hop, houter⟩, ?_⟩
      show op.level + 1 ≤ level
      omega
  | _ => exact ⟨he, hlevel, hp, Nat.zero_le _⟩

end Pending

/-! ## Places in an expression -/

namespace ExprSpot

/-- What has been read of a statement up to a place in an expression of it. -/
def marks : ExprSpot → List Mark
  | operand p => p.marks
  | firstArgument callee p => p.marks ++ callee.marks ++ [.sign .lparen]
  | name w p => p.marks ++ [.name w.text]
  | member object w p => p.marks ++ object.marks ++ [.sign .dot, .name w.text]
  | operator e p => p.marks ++ e.marks
  | dot e p => p.marks ++ e.marks ++ [.sign .dot]
  | className c p => p.marks ++ [.className c.text]
  | classDot c p => p.marks ++ [.className c.text, .sign .dot]
  | classMember c w p => p.marks ++ [.className c.text, .sign .dot, .name w.text]
  | newWord _ p => p.marks ++ [.keyword .new]
  | newClass _ c p => p.marks ++ [.keyword .new, .className c.text]
  | newParen _ c p => p.marks ++ [.keyword .new, .className c.text, .sign .lparen]
  | newType _ element p => p.marks ++ .keyword .new :: element.marks

/-- What is kept at a place in an expression is faithful, and an operand that is
complete needs no parentheses. -/
def Faithful : ExprSpot → Prop
  | firstArgument callee p => callee.Faithful ∧ p.Faithful
  | member e _ p | operator e p | dot e p => e.Faithful ∧ e.level = 7 ∧ p.Faithful
  | newType _ element p => 0 ≤ element.dimension ∧ p.Faithful
  | operand p | name _ p | className _ p | classDot _ p | classMember _ _ p | newWord _ p
  | newClass _ _ p | newParen _ _ p => p.Faithful

end ExprSpot

/-- The tokens of a parse tree show all of it. -/
def StmtTree.Faithful (s : StmtTree) : Prop :=
  s.stmt.Everywhere Stmt.Faithful Expr.Faithful

namespace ExprStep

/-- What has been read of a statement up to where a token leads. -/
def marks : ExprStep → List Mark
  | inside s => s.marks
  | statement s => s.marks
  | ifBranch _ condition => [.keyword .if_, .sign .lparen] ++ condition.marks ++ [.sign .rparen]
  | whileBranch _ condition =>
    [.keyword .while_, .sign .lparen] ++ condition.marks ++ [.sign .rparen]

/-- What is kept where a token leads is faithful. A statement that ends with its
expression leaves no `if` open. -/
def Faithful : ExprStep → Prop
  | inside s => s.Faithful
  | statement s => s.Faithful ∧ s.stmt.endsOpen = false
  | ifBranch _ condition | whileBranch _ condition => condition.Faithful

end ExprStep

namespace ExprSpot

theorem start_account {t : Token} {p : Pending} {s : ExprSpot} (h : start t p = some s)
    (hp : p.Faithful) : s.marks = p.marks ++ [t.mark] ∧ s.Faithful := by
  unfold start at h
  split at h <;> cases h <;>
    simp [marks, Pending.marks, Token.mark, Token.word, ExprTree.marks, ExprTree.expr,
      Expr.marks, Literal.mark, UnaryOp.sign, Faithful, Pending.Faithful, ExprTree.Faithful,
      ExprTree.level, Expr.level, Expr.Everywhere, Expr.Faithful, *]

variable {t : Token} {e : ExprTree} {p : Pending} {step : ExprStep}

/-- What a closing token makes of an expression in which no operator waits. -/
theorem CloseLeads.account (h : CloseLeads t e p step) (he : e.Faithful) (hp : p.Faithful) :
    step.marks = p.marks ++ e.marks ++ [t.mark] ∧ step.Faithful := by
  cases h with
  | paren ht =>
    refine ⟨?_, ⟨trivial, he⟩, rfl, hp⟩
    simp [ExprStep.marks, marks, Pending.marks, ExprTree.marks, ExprTree.expr, Expr.marks,
      Token.mark, ht]
  | call ht =>
    refine ⟨?_, Callee.call_faithful hp.1 ?_, Callee.call_level .., hp.2.2⟩
    · simp [ExprStep.marks, marks, Pending.marks, Callee.call_marks, argumentMarks, listed_concat,
        Token.mark, ht]
    · simpa [or_imp, forall_and] using ⟨hp.2.1, he⟩
  | ifCondition ht | whileCondition ht =>
    exact ⟨by simp [ExprStep.marks, Pending.marks, Purpose.marks, Token.mark, ht], he⟩
  | element ht =>
    refine ⟨?_, ⟨hp.2.1, hp.1, he⟩, rfl, hp.2.2⟩
    simp [ExprStep.marks, marks, Pending.marks, ExprTree.marks, ExprTree.expr, Expr.marks,
      Token.mark, ht]
  | newArray ht =>
    refine ⟨?_, ⟨hp.1, he⟩, rfl, hp.2⟩
    simp [ExprStep.marks, marks, Pending.marks, ExprTree.marks, ExprTree.expr, Expr.marks,
      Token.mark, ht]
  | nextArgument ht =>
    refine ⟨?_, hp.1, by simpa using ⟨he, hp.2.1⟩, hp.2.2⟩
    simp [ExprStep.marks, marks, Pending.marks, Token.mark, ht]
  | expression ht =>
    refine ⟨?_, ⟨trivial, he⟩, rfl⟩
    simp [ExprStep.marks, Pending.marks, Purpose.marks, StmtTree.marks, StmtTree.stmt, Stmt.marks,
      ExprTree.marks, Token.mark, ht]
  | assigned ht =>
    refine ⟨?_, ⟨trivial, hp, he⟩, rfl⟩
    simp [ExprStep.marks, Pending.marks, Purpose.marks, StmtTree.marks, StmtTree.stmt, Stmt.marks,
      ExprTree.marks, Token.mark, ht]
  | initial ht =>
    refine ⟨?_, ⟨hp, by simpa [ExprTree.Faithful] using he⟩, rfl⟩
    simp [ExprStep.marks, Pending.marks, Purpose.marks, StmtTree.marks, StmtTree.stmt, Stmt.marks,
      ExprTree.marks, Token.mark, ht]
  | returned ht =>
    refine ⟨?_, ⟨trivial, by simpa [ExprTree.Faithful] using he⟩, rfl⟩
    simp [ExprStep.marks, Pending.marks, Purpose.marks, StmtTree.marks, StmtTree.stmt, Stmt.marks,
      ExprTree.marks, Expr.marks?, Token.mark, ht]

theorem OperatorLeads.account (h : OperatorLeads t e p step) (he : e.Faithful)
    (h7 : e.level = 7) (hp : p.Faithful) :
    step.marks = p.marks ++ e.marks ++ [t.mark] ∧ step.Faithful := by
  have hfloor := p.floor_le_six
  cases h with
  | dot ht => exact ⟨by simp [ExprStep.marks, marks, Token.mark, ht], he, h7, hp⟩
  | index ht =>
    exact ⟨by simp [ExprStep.marks, marks, Pending.marks, Token.mark, ht], he, h7, hp⟩
  | target ht =>
    exact ⟨by simp [ExprStep.marks, marks, Pending.marks, Purpose.marks, Token.mark, ht], he⟩
  | @binary _ op left outer ht ha =>
    -- the operators that are applied bind at least as tightly, so the result may be its operand
    have hop := Pending.level_le_five op
    have hmarks := Pending.apply_marks op.level e p
    obtain ⟨hleft, hlevel, houter, hwait⟩ :=
      Pending.apply_faithful op.level he (by omega) (by omega) hp (by omega)
    rw [ha] at hmarks hleft hlevel houter hwait
    refine ⟨?_, hleft, hlevel, hwait, houter⟩
    rw [← hmarks, Token.mark, ht]
    rfl
  | close ha h =>
    have hmarks := Pending.apply_marks 0 e p
    obtain ⟨hx, -, houter, -⟩ :=
      Pending.apply_faithful 0 he (by omega) (Nat.zero_le _) hp (Nat.zero_le _)
    rw [ha] at hmarks hx houter
    rw [← hmarks]
    exact h.account hx houter

/-- A token in an expression adds its mark to what has been read of the statement,
and leaves it faithful. -/
theorem Leads.account {s : ExprSpot} (h : Leads t s step) (hs : s.Faithful) :
    step.marks = s.marks ++ [t.mark] ∧ step.Faithful := by
  cases h with
  | start h => exact start_account h hs
  | noArguments ht =>
    refine ⟨?_, Callee.call_faithful hs.1 (by simp), Callee.call_level .., hs.2⟩
    simp [ExprStep.marks, marks, Callee.call_marks, argumentMarks, Token.mark, ht]
  | firstArgument h =>
    obtain ⟨hm, hf⟩ := start_account h ⟨hs.1, by simp, hs.2⟩
    exact ⟨by simpa [ExprStep.marks, marks, Pending.marks] using hm, hf⟩
  | localCall ht | staticCall ht =>
    exact ⟨by simp [ExprStep.marks, marks, Callee.marks, Token.mark, ht], trivial, hs⟩
  | var h => exact h.account trivial rfl hs
  | virtualCall ht =>
    exact ⟨by simp [ExprStep.marks, marks, Callee.marks, Token.mark, ht], ⟨hs.1, hs.2.1⟩, hs.2.2⟩
  | field h =>
    obtain ⟨hm, hf⟩ := h.account ⟨hs.2.1, hs.1⟩ rfl hs.2.2
    exact ⟨by simp [hm, marks, ExprTree.marks, ExprTree.expr, Expr.marks], hf⟩
  | operator h => exact h.account hs.1 hs.2.1 hs.2.2
  | length ht =>
    refine ⟨?_, ⟨hs.2.1, hs.1⟩, rfl, hs.2.2⟩
    simp [ExprStep.marks, marks, Token.mark, ht, ExprTree.marks, ExprTree.expr, Expr.marks]
  | member ht | classDot ht | classMember ht | newClass ht | newParen ht =>
    exact ⟨by simp [ExprStep.marks, marks, Token.mark, Token.word, ht], hs⟩
  | newType _ h =>
    obtain ⟨hm, hd⟩ := Token.type?_account h
    exact ⟨by simp [ExprStep.marks, marks, hm], hd, hs⟩
  | classSize ht =>
    refine ⟨?_, Int.le_refl 0, hs⟩
    simp [ExprStep.marks, marks, Pending.marks, TypeRef.marks, BaseType.mark, Token.mark, ht]
  | classBrackets ht =>
    refine ⟨?_, by simp, hs⟩
    simp [ExprStep.marks, marks, TypeRef.marks, BaseType.mark, Token.mark, ht]
  | newObject ht =>
    refine ⟨?_, trivial, rfl, hs⟩
    simp [ExprStep.marks, marks, ExprTree.marks, ExprTree.expr, Expr.marks, Token.mark, ht]
  | size ht => exact ⟨by simp [ExprStep.marks, marks, Pending.marks, Token.mark, ht], hs⟩
  | brackets ht =>
    refine ⟨?_, TypeRef.dimension_array hs.1, hs.2⟩
    simp [ExprStep.marks, marks, TypeRef.marks_array hs.1, Token.mark, ht]

end ExprSpot

end IcFront
