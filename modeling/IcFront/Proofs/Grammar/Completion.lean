import IcFront.Proofs.Grammar.ReadProgram

/-!
# Every position can be completed

From every position some marks lead to a complete program (`Position.exists_completion`),
and a few kinds of mark are enough (`closers`). An expression is brought to where an
operand is complete; then what is open around the operand is closed from inside out, each
time with fewer things open; and the same goes for the statements and the braces around
it.

So a position never promises what cannot follow: whatever has been read without a fault
starts some program.
-/

namespace IcFront

/-! ## Going on with closers -/

/-- The marks that programs are completed with. -/
def closers : List Mark :=
  [.name "x", .className "A", .keyword .int, .keyword .break_, .sign .lbrace, .sign .rbrace,
    .sign .lparen, .sign .rparen, .sign .lbracket, .sign .rbracket, .sign .dot,
    .sign .semicolon]

theorem closers_writable : ∀ m ∈ closers, m.Writable ∧ m.Plain := by
  have hnames : (Keyword.ofText? "x" = none ∧ isLower 'x' = true) ∧ isUpper 'A' = true := by
    decide
  simpa [closers, Mark.Writable, Mark.Plain] using hnames

section Reaches

variable {σ τ : Type} {step : σ → Mark → Option σ} {step' : τ → Mark → Option τ} {s t u : σ}

/-- Closers lead from one place to another. -/
def Reaches (step : σ → Mark → Option σ) (s t : σ) : Prop :=
  ∃ ms : List Mark, (∀ m ∈ ms, m ∈ closers) ∧ ms.foldlM step s = some t

namespace Reaches

theorem refl (s : σ) : Reaches step s s := ⟨[], by simp, rfl⟩

theorem trans (h : Reaches step s t) (h' : Reaches step t u) : Reaches step s u := by
  obtain ⟨ms, hms, hrun⟩ := h
  obtain ⟨ms', hms', hrun'⟩ := h'
  refine ⟨ms ++ ms', fun m hm => (List.mem_append.1 hm).elim (hms m) (hms' m), ?_⟩
  rw [List.foldlM_append, hrun]
  exact hrun'

/-- One closer leads to where it leads. -/
theorem of_step {m : Mark} (hm : m ∈ closers) (h : step s m = some t) : Reaches step s t :=
  ⟨[m], by simpa using hm, by rw [List.foldlM_cons, h]; rfl⟩

/-- What leads on in a part of a place leads on in the whole. -/
theorem map {f : σ → τ} (hf : ∀ s t m, step s m = some t → step' (f s) m = some (f t))
    (h : Reaches step s t) : Reaches step' (f s) (f t) := by
  obtain ⟨ms, hms, hrun⟩ := h
  refine ⟨ms, hms, ?_⟩
  clear hms
  induction ms generalizing s with
  | nil =>
    obtain rfl := Option.some.inj hrun
    rfl
  | cons m ms ih =>
    rw [List.foldlM_cons] at hrun
    obtain ⟨s', hs', hrun⟩ := Option.bind_eq_some_iff.1 hrun
    rw [List.foldlM_cons, hf s s' m hs']
    exact ih hrun

end Reaches

end Reaches

/-! ## Expressions -/

/-- From every place in an expression some operand can be completed. -/
theorem ExprSpot.reaches_complete (s : ExprSpot) :
    ∃ s' e p, Reaches step s s' ∧ s'.complete? = some (e, p) := by
  -- the arguments of a call may be left out, and so may those of a new object
  have call (callee : Callee) (p : Pending) :
      Reaches step (firstArgument callee p) (operator (callee.call []) p) :=
    .of_step (m := .sign .rparen) (by decide) rfl
  have object (line : Nat) (c : Word) (p : Pending) :
      Reaches step (newParen line c p) (operator (.newObject line c) p) :=
    .of_step (m := .sign .rparen) (by decide) rfl
  have static (c w : Word) (p : Pending) :
      Reaches step (classMember c w p) (operator (.staticCall c w []) p) :=
    .trans (.of_step (m := .sign .lparen) (by decide) rfl) (call (.static c w) p)
  cases s with
  | operand p => exact ⟨name ⟨"x", 1⟩ p, _, _, .of_step (m := .name "x") (by decide) rfl, rfl⟩
  | firstArgument callee p => exact ⟨_, _, _, call callee p, rfl⟩
  | name w p => exact ⟨_, _, _, .refl _, rfl⟩
  | member object w p => exact ⟨_, _, _, .refl _, rfl⟩
  | operator e p => exact ⟨_, _, _, .refl _, rfl⟩
  | dot e p => exact ⟨member e ⟨"x", 1⟩ p, _, _, .of_step (m := .name "x") (by decide) rfl, rfl⟩
  | className c p =>
    have hdot : Reaches step (className c p) (classDot c p) :=
      .of_step (m := .sign .dot) (by decide) rfl
    have hname : Reaches step (classDot c p) (classMember c ⟨"x", 1⟩ p) :=
      .of_step (m := .name "x") (by decide) rfl
    exact ⟨_, _, _, (hdot.trans hname).trans (static c _ p), rfl⟩
  | classDot c p =>
    have hname : Reaches step (classDot c p) (classMember c ⟨"x", 1⟩ p) :=
      .of_step (m := .name "x") (by decide) rfl
    exact ⟨_, _, _, hname.trans (static c _ p), rfl⟩
  | classMember c w p => exact ⟨_, _, _, static c w p, rfl⟩
  | newWord line p =>
    have hclass : Reaches step (newWord line p) (newClass line ⟨"A", 1⟩ p) :=
      .of_step (m := .className "A") (by decide) rfl
    have hparen : Reaches step (newClass line ⟨"A", 1⟩ p) (newParen line ⟨"A", 1⟩ p) :=
      .of_step (m := .sign .lparen) (by decide) rfl
    exact ⟨_, _, _, (hclass.trans hparen).trans (object line _ p), rfl⟩
  | newClass line c p =>
    have hparen : Reaches step (newClass line c p) (newParen line c p) :=
      .of_step (m := .sign .lparen) (by decide) rfl
    exact ⟨_, _, _, hparen.trans (object line c p), rfl⟩
  | newParen line c p => exact ⟨_, _, _, object line c p, rfl⟩
  | newType line element p =>
    have hsize : Reaches step (newType line element p) (operand (.size line element p)) :=
      .of_step (m := .sign .lbracket) (by decide) rfl
    have hname : Reaches step (operand (.size line element p))
        (name ⟨"x", 1⟩ (.size line element p)) :=
      .of_step (m := .name "x") (by decide) rfl
    exact ⟨_, _, _, hsize.trans hname, rfl⟩

/-- Once all operators that wait have been applied, none waits, and no more is open than
before. -/
theorem Pending.apply_zero (e : ExprTree) (p : Pending) :
    (p.apply 0 e).2.floor = 0 ∧ sizeOf (p.apply 0 e).2 ≤ sizeOf p := by
  induction p generalizing e with
  | unary op line outer ih =>
    obtain ⟨hfloor, hsize⟩ := ih (.unary op line e)
    exact ⟨hfloor, Nat.le_trans hsize (by simp)⟩
  | binary left op line outer ih =>
    obtain ⟨hfloor, hsize⟩ := ih (.binary left op line e)
    rw [apply, if_pos (Nat.zero_le _)]
    exact ⟨hfloor, Nat.le_trans hsize (by simp)⟩
  | _ => exact ⟨rfl, Nat.le_refl _⟩

/-! ## Bodies -/

namespace Body

/-- What leads on in an expression leads on in the body around it. -/
theorem reaches_expr {enc : Enclosing} {s s' : ExprSpot} (h : Reaches ExprSpot.step s s') :
    Reaches step ⟨enc, .expr s⟩ ⟨enc, .expr s'⟩ :=
  h.map (f := fun s => (⟨enc, .expr s⟩ : Body)) fun _ _ _ => step_expr

/-- A closing sign leads on from a complete operand when the operators that wait have been
applied. -/
theorem reaches_close (enc : Enclosing) {s : ExprSpot} {e x : ExprTree} {p outer : Pending}
    (h : s.complete? = some (e, p)) (ha : p.apply 0 e = (x, outer)) (sign : Sign)
    (hm : .sign sign ∈ closers) {next : ExprStep}
    (hclose : ExprSpot.CloseLeads (Mark.sign sign).token x outer next) :
    Reaches step ⟨enc, .expr s⟩ (ofExprStep enc next) :=
  .of_step hm (step_complete h (.close ha hclose))

/-- A statement that breaks may stand wherever one must follow. -/
theorem reaches_branch (enc : Enclosing) :
    Reaches step ⟨enc, .branch⟩ ⟨enc, .after (.break_ 1)⟩ := by
  have hword : Reaches step ⟨enc, .branch⟩ ⟨enc, .breakWord 1⟩ :=
    .of_step (m := .keyword .break_) (by decide) rfl
  exact hword.trans (.of_step (m := .sign .semicolon) (by decide) rfl)

/-- From a complete operand its statement can be completed: what is open around the
operand is closed, from inside out. -/
theorem reaches_of_complete {s : ExprSpot} {e : ExprTree} {p : Pending}
    (h : s.complete? = some (e, p)) (enc : Enclosing) :
    ∃ enc' st, Reaches step ⟨enc, .expr s⟩ ⟨enc', .after st⟩ := by
  obtain ⟨hfloor, hsize⟩ := p.apply_zero e
  rcases ha : p.apply 0 e with ⟨x, p'⟩
  rw [ha] at hfloor hsize
  have houter {f : ExprTree} {outer : Pending} (hless : sizeOf outer < sizeOf p)
      (hclose : Reaches step ⟨enc, .expr s⟩ ⟨enc, .expr (.operator f outer)⟩) :
      ∃ enc' st, Reaches step ⟨enc, .expr s⟩ ⟨enc', .after st⟩ := by
    obtain ⟨enc', st, hrest⟩ := reaches_of_complete (s := .operator f outer) rfl enc
    exact ⟨enc', st, hclose.trans hrest⟩
  cases p' with
  | unary op line outer => cases hfloor
  | binary left op line outer => cases hfloor
  | bottom purpose =>
    -- nothing is open any more, and the statement or its condition ends
    cases purpose with
    | statement => exact ⟨_, _, reaches_close enc h ha .semicolon (by decide) (.expression rfl)⟩
    | assigned target =>
      exact ⟨_, _, reaches_close enc h ha .semicolon (by decide) (.assigned rfl)⟩
    | initial type w => exact ⟨_, _, reaches_close enc h ha .semicolon (by decide) (.initial rfl)⟩
    | returned line => exact ⟨_, _, reaches_close enc h ha .semicolon (by decide) (.returned rfl)⟩
    | ifCondition line =>
      have hif := reaches_close enc h ha .rparen (by decide) (.ifCondition rfl)
      exact ⟨_, _, hif.trans (reaches_branch (.thenBranch line x enc))⟩
    | whileCondition line =>
      have hwhile := reaches_close enc h ha .rparen (by decide) (.whileCondition rfl)
      exact ⟨_, _, hwhile.trans (reaches_branch (.loop line x enc))⟩
  | paren outer =>
    exact houter (by simp at hsize; omega)
      (reaches_close enc h ha .rparen (by decide) (.paren rfl))
  | index array outer =>
    exact houter (by simp at hsize; omega)
      (reaches_close enc h ha .rbracket (by decide) (.element rfl))
  | argument callee earlier outer =>
    exact houter (by simp at hsize; omega)
      (reaches_close enc h ha .rparen (by decide) (.call rfl))
  | size line element outer =>
    exact houter (by simp at hsize; omega)
      (reaches_close enc h ha .rbracket (by decide) (.newArray rfl))
termination_by sizeOf p

/-- From every place in an expression its statement can be completed. -/
theorem reaches_of_expr (s : ExprSpot) (enc : Enclosing) :
    ∃ enc' st, Reaches step ⟨enc, .expr s⟩ ⟨enc', .after st⟩ := by
  obtain ⟨s', e, p, hlead, hcomplete⟩ := s.reaches_complete
  obtain ⟨enc', st, hrest⟩ := reaches_of_complete hcomplete enc
  exact ⟨enc', st, (reaches_expr hlead).trans hrest⟩

/-- From every place in a body some statement can be completed. -/
theorem reaches_after (b : Body) : ∃ enc st, Reaches step b ⟨enc, .after st⟩ := by
  obtain ⟨enc, spot⟩ := b
  have hsemicolon {spot : Spot} {st : StmtTree}
      (h : step ⟨enc, spot⟩ (.sign .semicolon) = some ⟨enc, .after st⟩) :
      ∃ enc' st, Reaches step ⟨enc, spot⟩ ⟨enc', .after st⟩ :=
    ⟨enc, st, .of_step (by decide) h⟩
  -- a condition is an expression that is closed by the parenthesis after it
  have hcondition {spot : Spot} {purpose : Purpose}
      (h : step ⟨enc, spot⟩ (.sign .lparen) =
        some ⟨enc, .expr (.operand (.bottom purpose))⟩) :
      ∃ enc' st, Reaches step ⟨enc, spot⟩ ⟨enc', .after st⟩ := by
    obtain ⟨enc', st, hrest⟩ := reaches_of_expr (.operand (.bottom purpose)) enc
    exact ⟨enc', st, .trans (.of_step (by decide) h) hrest⟩
  have hname {spot : Spot} {type : TypeRef} {w : Word}
      (h : step ⟨enc, spot⟩ (.name "x") = some ⟨enc, .declaredName type w⟩) :
      ∃ enc' st, Reaches step ⟨enc, spot⟩ ⟨enc', .after st⟩ := by
    have hend : Reaches step ⟨enc, .declaredName type w⟩ ⟨enc, .after (.localVar type w none)⟩ :=
      .of_step (m := .sign .semicolon) (by decide) rfl
    exact ⟨enc, _, .trans (.of_step (by decide) h) hend⟩
  cases spot with
  | opened =>
    have hword : Reaches step ⟨enc, .opened⟩ ⟨enc, .breakWord 1⟩ :=
      .of_step (m := .keyword .break_) (by decide) rfl
    exact ⟨enc, .break_ 1, hword.trans (.of_step (m := .sign .semicolon) (by decide) rfl)⟩
  | branch => exact ⟨enc, _, reaches_branch enc⟩
  | after st => exact ⟨enc, st, .refl _⟩
  | breakWord line => exact hsemicolon rfl
  | continueWord line => exact hsemicolon rfl
  | returnWord line => exact hsemicolon rfl
  | ifWord line => exact hcondition rfl
  | whileWord line => exact hcondition rfl
  | className c => exact hname rfl
  | declared type => exact hname rfl
  | declaredName type w => exact hsemicolon rfl
  | expr s => exact reaches_of_expr s enc

end Body

/-- A statement settles in the nearest braces: those of the body, or those of a block with
less around it. -/
theorem Enclosing.settle_cases (st : StmtTree) (enc : Enclosing) :
    (∃ earlier, enc.settle st = .body earlier) ∨
    ∃ line earlier outer, enc.settle st = .block line earlier outer ∧
      sizeOf outer < sizeOf enc := by
  induction enc generalizing st with
  | body earlier => exact .inl ⟨_, rfl⟩
  | block line earlier outer _ => exact .inr ⟨line, _, outer, rfl, by rw [block.sizeOf_spec]; omega⟩
  | thenBranch line condition outer ih =>
    refine (ih (.ifThen line condition st)).imp_right ?_
    rintro ⟨l, b, o, h, ho⟩
    exact ⟨l, b, o, h, Nat.lt_trans ho (by rw [thenBranch.sizeOf_spec]; omega)⟩
  | elseBranch line condition b outer ih =>
    refine (ih (.ifElse line condition b st)).imp_right ?_
    rintro ⟨l, b, o, h, ho⟩
    exact ⟨l, b, o, h, Nat.lt_trans ho (by rw [elseBranch.sizeOf_spec]; omega)⟩
  | loop line condition outer ih =>
    refine (ih (.while_ line condition st)).imp_right ?_
    rintro ⟨l, b, o, h, ho⟩
    exact ⟨l, b, o, h, Nat.lt_trans ho (by rw [loop.sizeOf_spec]; omega)⟩

/-! ## Programs -/

namespace Position

/-- After a complete statement the braces around it can be closed, from inside out. -/
theorem reaches_of_after (c : OpenClass) (s : Signature) (enc : Enclosing) (st : StmtTree) :
    ∃ c', Reaches step (body c s ⟨enc, .after st⟩) (members c') := by
  have hstep : (body c s ⟨enc, .after st⟩).step (.sign .rbrace) =
      (Body.close (enc.settle st)).map (ofBodyStep c s) := rfl
  rcases enc.settle_cases st with ⟨earlier, h⟩ | ⟨line, earlier, outer, h, hless⟩
  · rw [h] at hstep
    exact ⟨_, .of_step (by decide) hstep⟩
  · rw [h] at hstep
    obtain ⟨c', hrest⟩ := reaches_of_after c s outer (.block line earlier.reverse)
    exact ⟨c', .trans (.of_step (by decide) hstep) hrest⟩
termination_by sizeOf enc

/-- From every place in a body the method can be completed. -/
theorem reaches_of_body (c : OpenClass) (s : Signature) (b : Body) :
    ∃ c', Reaches step (body c s b) (members c') := by
  obtain ⟨enc, st, hlead⟩ := b.reaches_after
  obtain ⟨c', hrest⟩ := reaches_of_after c s enc st
  have hbody : Reaches step (body c s b) (body c s ⟨enc, .after st⟩) :=
    hlead.map (f := body c s) fun b b' m h => by
      have hone : b.run [m] = some b' := by rw [Body.run_cons, h]; rfl
      have hrun := run_body (c := c) (s := s) hone
      rw [run_cons] at hrun
      obtain ⟨q, hq, hrun⟩ := Option.bind_eq_some_iff.1 hrun
      obtain rfl := Option.some.inj hrun
      exact hq
  exact ⟨c', hbody.trans hrest⟩

/-- From every position in a class the member can be completed, if one has been begun. -/
theorem reaches_members {p : Position} (h : p.finish? = none) :
    ∃ c, Reaches step p (members c) := by
  -- what is left of each sort of member, and of the heading of a class
  have hmethod (c : OpenClass) (s : Signature) :
      ∃ c', Reaches step (signature c s) (members c') :=
    ⟨_, .of_step (m := .sign .semicolon) (by decide) rfl⟩
  have hformals {p : Position} {c : OpenClass} {s : Signature}
      (h : p.step (.sign .rparen) = some (signature c s)) : ∃ c', Reaches step p (members c') := by
    obtain ⟨c', hrest⟩ := hmethod c s
    exact ⟨c', .trans (.of_step (by decide) h) hrest⟩
  have hformal (c : OpenClass) (s : Signature) (type : TypeRef) :
      ∃ c', Reaches step (formalType c s type) (members c') := by
    obtain ⟨c', hrest⟩ := hformals (p := formalName c _) rfl
    exact ⟨c', .trans (.of_step (m := .name "x") (by decide) rfl) hrest⟩
  have hstatic (c : OpenClass) (type : TypeRef) (w : Word) :
      ∃ c', Reaches step (staticName c type w) (members c') := by
    obtain ⟨c', hrest⟩ := hformals (p := formals c _) rfl
    exact ⟨c', .trans (.of_step (m := .sign .lparen) (by decide) rfl) hrest⟩
  have htype (c : OpenClass) (static : Bool) (type : TypeRef) :
      ∃ c', Reaches step (memberType c static type) (members c') := by
    cases static with
    | true =>
      obtain ⟨c', hrest⟩ := hstatic c type ⟨"x", 1⟩
      exact ⟨c', .trans (.of_step (m := .name "x") (by decide) rfl) hrest⟩
    | false =>
      have hname : Reaches step (memberType c false type) (memberName c type ⟨"x", 1⟩) :=
        .of_step (m := .name "x") (by decide) rfl
      exact ⟨_, hname.trans (.of_step (m := .sign .semicolon) (by decide) rfl)⟩
  have hfield (c : OpenClass) (type : TypeRef) (first : Word) (further : List Word) :
      ∃ c', Reaches step (fieldName c type first further) (members c') :=
    ⟨_, .of_step (m := .sign .semicolon) (by decide) rfl⟩
  have hheading (earlier : List ClassTree) (w : Word) :
      ∃ c', Reaches step (className earlier w) (members c') :=
    ⟨_, .of_step (m := .sign .lbrace) (by decide) rfl⟩
  have hparent (earlier : List ClassTree) (w parent : Word) :
      ∃ c', Reaches step (superclass earlier w parent) (members c') :=
    ⟨_, .of_step (m := .sign .lbrace) (by decide) rfl⟩
  cases p with
  | classes earlier => cases h
  | classWord earlier =>
    obtain ⟨c', hrest⟩ := hheading earlier ⟨"A", 1⟩
    exact ⟨c', .trans (.of_step (m := .className "A") (by decide) rfl) hrest⟩
  | className earlier w => exact hheading earlier w
  | extendsWord earlier w =>
    obtain ⟨c', hrest⟩ := hparent earlier w ⟨"A", 1⟩
    exact ⟨c', .trans (.of_step (m := .className "A") (by decide) rfl) hrest⟩
  | superclass earlier w parent => exact hparent earlier w parent
  | members c => exact ⟨c, .refl _⟩
  | staticWord c =>
    obtain ⟨c', hrest⟩ := htype c true ⟨.primitive .int, 0, 1⟩
    exact ⟨c', .trans (.of_step (m := .keyword .int) (by decide) rfl) hrest⟩
  | memberType c static type => exact htype c static type
  | memberName c type w => exact ⟨_, .of_step (m := .sign .semicolon) (by decide) rfl⟩
  | staticName c type w => exact hstatic c type w
  | fieldComma c type first further =>
    obtain ⟨c', hrest⟩ := hfield c type first (⟨"x", 1⟩ :: further)
    exact ⟨c', .trans (.of_step (m := .name "x") (by decide) rfl) hrest⟩
  | fieldName c type first further => exact hfield c type first further
  | formals c s => exact hformals rfl
  | formalComma c s =>
    obtain ⟨c', hrest⟩ := hformal c s ⟨.primitive .int, 0, 1⟩
    exact ⟨c', .trans (.of_step (m := .keyword .int) (by decide) rfl) hrest⟩
  | formalType c s type => exact hformal c s type
  | formalName c s => exact hformals rfl
  | signature c s => exact hmethod c s
  | body c s b => exact reaches_of_body c s b

/-- Every position can be completed: closers lead from it to a complete program. -/
theorem exists_completion (p : Position) :
    ∃ ms r tree, (∀ m ∈ ms, m.Writable ∧ m.Plain) ∧ p.run ms = some r ∧
      r.finish? = some tree := by
  obtain ⟨r, tree, ⟨ms, hms, hrun⟩, htree⟩ :
      ∃ r tree, Reaches step p r ∧ r.finish? = some tree := by
    cases h : p.finish? with
    | some tree => exact ⟨p, tree, .refl p, h⟩
    | none =>
      obtain ⟨c, hlead⟩ := reaches_members h
      exact ⟨classes c.close, _, hlead.trans (.of_step (m := .sign .rbrace) (by decide) rfl), rfl⟩
  exact ⟨ms, r, tree, fun m hm => closers_writable m (hms m hm), hrun, htree⟩

end Position

end IcFront
