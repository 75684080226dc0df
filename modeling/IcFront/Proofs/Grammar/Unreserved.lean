import IcFront.Proofs.Grammar.Account
import IcFront.Proofs.Grammar.Lexemes

/-!
# Names that are used

A name that an expression uses is none of the reserved words that are looked for where it
stands: a variable, or a call without receiver or class, is not called like one of the words
that start an operand, and a field of an object, or a call with a receiver, is not called
like the length of an array (`Expr.Unreserved`). For a name is read as a reserved word where
that word is looked for (`Token.Fits`), and a place in a program keeps this of all that has
been read (`Position.Leads.unreserved`).
-/

namespace IcFront

/-- The reserved words that are operands, or start one. -/
def Keyword.operands : List Keyword := [.this, .new, .true_, .false_, .null]

/-- The name of a variable, or of a call without receiver or class, starts no other operand;
a name after a dot is not that of the length of an array. -/
def Expr.Unreserved : Expr → Prop
  | var name _ | localCall name _ _ => ∀ k ∈ Keyword.operands, name ≠ k.text
  | field _ name _ | virtualCall _ name _ _ => name ≠ Keyword.length.text
  | _ => True

/-- A name is no reserved word that is looked for where it is read. -/
def Token.Fits (expected : Expectation) (t : Token) : Prop :=
  t.terminal = .name → ∀ k, expected (.keyword k) = true → t.text ≠ k.text

theorem Token.Fits.mono {expected expected' : Expectation} {t : Token} (h : t.Fits expected)
    (hle : ∀ k, expected' (.keyword k) = true → expected (.keyword k) = true) :
    t.Fits expected' :=
  fun hname k hk => h hname k (hle k hk)

/-- All names that a parse tree uses are unreserved. -/
def ExprTree.Unreserved (e : ExprTree) : Prop := e.expr.Everywhere Expr.Unreserved

/-- All names that a parse tree uses are unreserved. -/
def StmtTree.Unreserved (s : StmtTree) : Prop :=
  s.stmt.Everywhere (fun _ => True) Expr.Unreserved

/-! ## Places in an expression -/

/-- The names in what has been read of a statement before its expression. -/
def Purpose.Unreserved : Purpose → Prop
  | assigned target => target.Unreserved
  | _ => True

namespace Callee

/-- The name of a callee, and those in its receiver. -/
def Unreserved : Callee → Prop
  | static _ _ => True
  | virtual receiver w => w.text ≠ Keyword.length.text ∧ receiver.Unreserved
  | «local» w => ∀ k ∈ Keyword.operands, w.text ≠ k.text

theorem call_unreserved {c : Callee} {arguments : List ExprTree} (hc : c.Unreserved)
    (ha : ∀ e ∈ arguments, e.Unreserved) : (c.call arguments).Unreserved := by
  have hargs : Expr.AllEverywhere Expr.Unreserved (ExprTree.exprs arguments) := by
    rw [Expr.allEverywhere_iff, ExprTree.exprs_eq_map]
    simpa [ExprTree.Unreserved] using ha
  cases c with
  | static c w => exact ⟨trivial, hargs⟩
  | virtual receiver w => exact ⟨hc.1, hc.2, hargs⟩
  | «local» w => exact ⟨hc, hargs⟩

end Callee

namespace Pending

/-- The names in what has been read of a statement before an operand. -/
def Unreserved : Pending → Prop
  | bottom purpose => purpose.Unreserved
  | unary _ _ outer | paren outer | size _ _ outer => outer.Unreserved
  | binary left _ _ outer => left.Unreserved ∧ outer.Unreserved
  | index array outer => array.Unreserved ∧ outer.Unreserved
  | argument callee earlier outer =>
    callee.Unreserved ∧ (∀ e ∈ earlier, e.Unreserved) ∧ outer.Unreserved

theorem apply_unreserved (level : Nat) {e : ExprTree} {p : Pending} (he : e.Unreserved)
    (hp : p.Unreserved) : (p.apply level e).1.Unreserved ∧ (p.apply level e).2.Unreserved := by
  induction p generalizing e with
  | unary op line outer ih => exact ih ⟨trivial, he⟩ hp
  | binary left op line outer ih =>
    rw [apply]
    split
    · exact ih ⟨trivial, hp.1, he⟩ hp.2
    · exact ⟨he, hp⟩
  | _ => exact ⟨he, hp⟩

end Pending

namespace ExprSpot

/-- The names in what has been read of a statement up to a place in an expression of it. -/
def Unreserved : ExprSpot → Prop
  | firstArgument callee p => callee.Unreserved ∧ p.Unreserved
  | name w p => (∀ k ∈ Keyword.operands, w.text ≠ k.text) ∧ p.Unreserved
  | member object w p =>
    w.text ≠ Keyword.length.text ∧ object.Unreserved ∧ p.Unreserved
  | operator e p | dot e p => e.Unreserved ∧ p.Unreserved
  | operand p | className _ p | classDot _ p | classMember _ _ p | newWord _ p
  | newClass _ _ p | newParen _ _ p | newType _ _ p => p.Unreserved

end ExprSpot

/-- The names in what has been read of a statement up to where a token leads. -/
def ExprStep.Unreserved : ExprStep → Prop
  | inside s => s.Unreserved
  | statement s => s.Unreserved
  | ifBranch _ condition | whileBranch _ condition => condition.Unreserved

namespace ExprSpot

variable {t : Token} {e : ExprTree} {p : Pending} {step : ExprStep}

theorem start_unreserved {s : ExprSpot} (h : start t p = some s) (hp : p.Unreserved)
    (ht : t.Fits .plainOperand) : s.Unreserved := by
  unfold start at h
  split at h
  case h_2 hname =>
    cases h
    refine ⟨fun k hk => ht hname k ?_, hp⟩
    simp only [Keyword.operands, List.mem_cons, List.not_mem_nil, or_false] at hk
    rcases hk with rfl | rfl | rfl | rfl | rfl <;> rfl
  all_goals
    cases h
  all_goals first | exact hp | exact ⟨trivial, hp⟩

theorem CloseLeads.unreserved (h : CloseLeads t e p step) (he : e.Unreserved)
    (hp : p.Unreserved) : step.Unreserved := by
  cases h with
  | paren => exact ⟨⟨trivial, he⟩, hp⟩
  | call =>
    refine ⟨Callee.call_unreserved hp.1 ?_, hp.2.2⟩
    simpa [or_imp, forall_and] using ⟨hp.2.1, he⟩
  | ifCondition | whileCondition => exact he
  | element => exact ⟨⟨trivial, hp.1, he⟩, hp.2⟩
  | newArray => exact ⟨⟨trivial, he⟩, hp⟩
  | nextArgument => exact ⟨hp.1, by simpa using ⟨he, hp.2.1⟩, hp.2.2⟩
  | expression => exact ⟨trivial, he⟩
  | assigned => exact ⟨trivial, hp, he⟩
  | initial | returned => exact ⟨trivial, by simpa [ExprTree.Unreserved] using he⟩

theorem OperatorLeads.unreserved (h : OperatorLeads t e p step) (he : e.Unreserved)
    (hp : p.Unreserved) : step.Unreserved := by
  cases h with
  | dot | index => exact ⟨he, hp⟩
  | target => exact he
  | @binary _ op _ _ _ ha =>
    have happly := Pending.apply_unreserved op.level he hp
    rw [ha] at happly
    exact happly
  | close ha h =>
    have happly := Pending.apply_unreserved 0 he hp
    rw [ha] at happly
    exact h.unreserved happly.1 happly.2

/-- A token that fits leaves the names that have been read of a statement unreserved. -/
theorem Leads.unreserved {s : ExprSpot} (h : Leads t s step) (hs : s.Unreserved)
    (ht : t.Fits s.expects) : step.Unreserved := by
  cases h with
  | start h => exact start_unreserved h hs (ht.mono fun _ hk => hk)
  | firstArgument h =>
    exact start_unreserved h ⟨hs.1, by simp, hs.2⟩ (ht.mono fun _ hk => hk)
  | noArguments => exact ⟨Callee.call_unreserved hs.1 (by simp), hs.2⟩
  | virtualCall => exact ⟨⟨hs.1, hs.2.1⟩, hs.2.2⟩
  | var h | operator h => exact h.unreserved hs.1 hs.2
  | field h => exact h.unreserved ⟨hs.1, hs.2.1⟩ hs.2.2
  -- after a dot the length of an array is looked for
  | member hname => exact ⟨ht hname .length rfl, hs⟩
  | length => exact ⟨⟨trivial, hs.1⟩, hs.2⟩
  | staticCall | newObject => exact ⟨trivial, hs⟩
  | localCall | classDot | classMember | newClass | newType | newParen | classSize
  | classBrackets | size | brackets => exact hs

end ExprSpot

/-! ## Places in a body -/

namespace Enclosing

/-- The names in what has been read of a body before a statement. -/
def Unreserved : Enclosing → Prop
  | body earlier => ∀ s ∈ earlier, s.Unreserved
  | block _ earlier outer => (∀ s ∈ earlier, s.Unreserved) ∧ outer.Unreserved
  | thenBranch _ condition outer | loop _ condition outer =>
    condition.Unreserved ∧ outer.Unreserved
  | elseBranch _ condition b outer =>
    condition.Unreserved ∧ b.Unreserved ∧ outer.Unreserved

theorem settle_unreserved {s : StmtTree} {e : Enclosing} (hs : s.Unreserved)
    (he : e.Unreserved) : (e.settle s).Unreserved := by
  induction e generalizing s with
  | body earlier => simpa [settle, Unreserved] using ⟨hs, he⟩
  | block line earlier outer _ => exact ⟨by simpa using ⟨hs, he.1⟩, he.2⟩
  | thenBranch line condition outer ih => exact ih ⟨trivial, he.1, hs⟩ he.2
  | elseBranch line condition b outer ih => exact ih ⟨trivial, he.1, he.2.1, hs⟩ he.2.2
  | loop line condition outer ih => exact ih ⟨trivial, he.1, hs⟩ he.2

theorem attachElse?_unreserved {s : StmtTree} {e e' : Enclosing} (h : e.attachElse? s = some e')
    (hs : s.Unreserved) (he : e.Unreserved) : e'.Unreserved := by
  induction e generalizing s with
  | body earlier => cases h
  | block line earlier outer _ => cases h
  | thenBranch line condition outer _ =>
    cases h
    exact ⟨he.1, hs, he.2⟩
  | elseBranch line condition b outer ih => exact ih h ⟨trivial, he.1, he.2.1, hs⟩ he.2.2
  | loop line condition outer ih => exact ih h ⟨trivial, he.1, hs⟩ he.2

end Enclosing

/-- The names in what has been read of a statement. -/
def Spot.Unreserved : Spot → Prop
  | after s => s.Unreserved
  | expr s => s.Unreserved
  | _ => True

/-- The names in what has been read of a body. -/
def Body.Unreserved (b : Body) : Prop := b.enclosing.Unreserved ∧ b.spot.Unreserved

/-- The names in what has been read of a body up to where a token leads. -/
def BodyStep.Unreserved : BodyStep → Prop
  | inside b => b.Unreserved
  | closed statements => ∀ s ∈ statements, s.Unreserved

theorem StmtTree.unreserved_stmts {ss : List StmtTree} :
    Stmt.AllEverywhere (fun _ => True) Expr.Unreserved (stmts ss) ↔
      ∀ s ∈ ss, s.Unreserved := by
  induction ss with
  | nil => simp [stmts, Stmt.AllEverywhere]
  | cons s ss ih => simp [stmts, Stmt.AllEverywhere, ih, StmtTree.Unreserved]

/-- A reserved word that starts an operand may start a statement. -/
theorem Expectation.statement_of_plainOperand {k : Keyword}
    (h : plainOperand (.keyword k) = true) : statement (.keyword k) = true := by
  cases k <;> first | rfl | cases h

namespace Body

variable {t : Token} {e : Enclosing} {step : BodyStep}

theorem StartLeads.unreserved {b : Body} (h : StartLeads t e b) (he : e.Unreserved)
    (ht : t.Fits .plainOperand) : b.Unreserved := by
  cases h with
  | block => exact ⟨⟨by simp, he⟩, trivial⟩
  | expression _ h => exact ⟨he, ExprSpot.start_unreserved h trivial ht⟩
  | className | returnWord | ifWord | whileWord | breakWord | continueWord | declared =>
    exact ⟨he, trivial⟩

theorem NextLeads.unreserved (h : NextLeads t e step) (he : e.Unreserved)
    (ht : t.Fits .plainOperand) : step.Unreserved := by
  cases h with
  | closeBody => simpa [BodyStep.Unreserved, Enclosing.Unreserved] using he
  | closeBlock => exact ⟨he.2, trivial, StmtTree.unreserved_stmts.2 (by simpa using he.1)⟩
  | start h => exact h.unreserved he ht

/-- A token that fits leaves the names that have been read of a body unreserved. -/
theorem Leads.unreserved {b : Body} (h : Leads t b step) (hb : b.Unreserved)
    (ht : t.Fits b.expects) : step.Unreserved := by
  obtain ⟨he, hs⟩ := hb
  -- a name that may start a statement or an operand here is no word that starts an operand
  have hplain (hle : ∀ k, Expectation.plainOperand (.keyword k) = true →
      b.expects (.keyword k) = true) : t.Fits .plainOperand :=
    ht.mono hle
  cases h with
  | opened h =>
    exact h.unreserved he
      (hplain fun k hk => by simp [expects, Expectation.statement_of_plainOperand hk])
  | branch h =>
    exact h.unreserved he (hplain fun k hk => Expectation.statement_of_plainOperand hk)
  | after h =>
    exact h.unreserved (Enclosing.settle_unreserved hs he)
      (hplain fun k hk => by simp [expects, Expectation.statement_of_plainOperand hk])
  | returned h =>
    exact ⟨he, ExprSpot.start_unreserved h trivial
      (hplain fun k hk => by simp [expects, Expectation.operand, hk])⟩
  | else_ _ h => exact ⟨Enclosing.attachElse?_unreserved h hs he, trivial⟩
  | return_ | localVar => exact ⟨he, trivial, by simp⟩
  | break_ | continue_ | ifCondition | whileCondition | classLocalName | classBrackets | classDot
  | localName | brackets | initial => exact ⟨he, trivial⟩
  | @expr _ _ step h =>
    have hf := h.unreserved hs ht
    cases step with
    | inside s => exact ⟨he, hf⟩
    | statement s => exact ⟨he, hf⟩
    | ifBranch line condition | whileBranch line condition => exact ⟨⟨hf, he⟩, trivial⟩

end Body

/-! ## Places in a program -/

/-- The names in the body of a method. -/
def MemberTree.Unreserved : MemberTree → Prop
  | fields .. => True
  | method _ body => ∀ ss ∈ body, ∀ s ∈ ss, s.Unreserved

/-- The names in a class. -/
def ClassTree.Unreserved (c : ClassTree) : Prop := ∀ m ∈ c.members, m.Unreserved

/-- The names in what has been read before a member of a class. -/
def OpenClass.Unreserved (c : OpenClass) : Prop :=
  (∀ t ∈ c.earlier, t.Unreserved) ∧ ∀ m ∈ c.members, m.Unreserved

theorem OpenClass.add_unreserved {c : OpenClass} {m : MemberTree} (hc : c.Unreserved)
    (hm : m.Unreserved) : (c.add m).Unreserved :=
  ⟨hc.1, by simpa [add] using ⟨hm, hc.2⟩⟩

namespace Position

/-- The names in what has been read of a program. -/
def Unreserved : Position → Prop
  | classes earlier | classWord earlier | className earlier _ | extendsWord earlier _
  | superclass earlier _ _ => ∀ t ∈ earlier, t.Unreserved
  | members c | staticWord c | memberType c _ _ | memberName c _ _ | staticName c _ _
  | fieldComma c _ _ _ | fieldName c _ _ _ | formals c _ | formalComma c _ | formalType c _ _
  | formalName c _ | signature c _ => c.Unreserved
  | body c _ b => c.Unreserved ∧ b.Unreserved

/-- A token that fits leaves the names that have been read of a program unreserved. -/
theorem Leads.unreserved {t : Token} {p q : Position} (h : Leads t p q) (hp : p.Unreserved)
    (ht : t.Fits p.expects) : q.Unreserved := by
  cases h with
  | openClass | openSubclass => exact ⟨hp, by simp⟩
  | closeClass =>
    simpa [OpenClass.close, Position.Unreserved, OpenClass.Unreserved, ClassTree.Unreserved,
      and_comm] using hp
  | field | fields => exact OpenClass.add_unreserved hp trivial
  | bodiless => exact OpenClass.add_unreserved hp (by simp [MemberTree.Unreserved])
  | openBody => exact ⟨hp, by simp [Enclosing.Unreserved], trivial⟩
  | @body _ _ _ step h =>
    have hf := h.unreserved hp.2 ht
    cases step with
    | inside b => exact ⟨hp.1, hf⟩
    | closed ss => exact OpenClass.add_unreserved hp.1 (by rintro _ ⟨⟩; exact hf)
  | _ => exact hp

end Position

/-! ## Texts -/

theorem ClassTree.decl_unreserved {c : ClassTree} (h : c.Unreserved) : ∀ m ∈ c.decl.methods,
    Stmt.AllEverywhere (fun _ => True) Expr.Unreserved m.form.body := by
  intro m hm
  obtain ⟨member, hmember, hm⟩ := List.mem_flatMap.1 hm
  cases member with
  | fields type first further => cases hm
  | method s body =>
    obtain rfl := List.mem_singleton.1 hm
    cases body with
    | none => exact trivial
    | some body =>
      have hbody := StmtTree.unreserved_stmts.2 (h _ hmember body rfl)
      cases hs : s.static <;> simpa [methodOf, MethodForm.body, hs] using hbody

namespace Reading

/-- A text that is read to its end leaves the names that it uses unreserved. -/
theorem go_unreserved {p : Position} {cs : List Char} {line offset last : Nat}
    {tree : ProgramTree} (h : (go p cs line offset last).result = .ok tree)
    (hp : p.Unreserved) : ∀ c ∈ tree, c.Unreserved := by
  fun_induction go p cs line offset last with
  | case1 p _ _ _ _ _ _ program hfinish =>
    cases h
    cases p with
    | classes earlier =>
      cases hfinish
      exact fun c hc => hp c (List.mem_reverse.1 hc)
    | _ => cases hfinish
  | case2 => cases h
  | case3 => cases h
  | case4 => cases h
  | case5 p _ _ _ _ _ _ _ c rest _ l hl text token q hq ih =>
    refine ih h ((Position.feed_eq_some_iff.1 hq).unreserved hp fun hname k hk htext => ?_)
    obtain ⟨terminal, n⟩ := l
    obtain rfl : terminal = .name := hname
    rw [wordLexeme_name (lexeme?_name hl rfl) htext] at hk
    cases hk

end Reading

/-- The names that the methods of a program use are unreserved. -/
def Program.Unreserved (p : Program Expr) : Prop :=
  ∀ c ∈ p.classes, ∀ m ∈ c.methods,
    Stmt.AllEverywhere (fun _ => True) Expr.Unreserved m.form.body

theorem Program.unreserved_of_parse {source : String} {p : Program Expr}
    (h : Program.parse source = .ok p) : p.Unreserved := by
  unfold Program.parse at h
  split at h
  · next tree htree =>
    obtain ⟨rfl, -⟩ := ProgramTree.meaning_ok h
    intro c hc
    obtain ⟨t, ht, rfl⟩ := List.mem_map.1 hc
    have hstart : Position.start.Unreserved := by simp [Position.start, Position.Unreserved]
    exact ClassTree.decl_unreserved (Reading.go_unreserved htree hstart t ht)
  · cases h

end IcFront
