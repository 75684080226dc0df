import IcFront.Proofs.Grammar.ReadExpr

/-!
# Reading statements back

What the places in a body make of the marks of statements (`Body.run`). The marks of a
statement lead from where a statement must follow (`Body.ready?`) to where one is
complete (`Body.run_marks`). What is complete there may be an inner statement of it,
with the rest still open around; but put into the braces around them the two make the
same, and so they do when an `else` follows, unless the statement ends in an `if` that
would take it.
-/

namespace IcFront

namespace Body

/-- Where a mark that is expected leads inside a body. -/
def step (b : Body) (m : Mark) : Option Body :=
  if b.expects m.terminal then
    match b.feed m.token with
    | some (.inside b) => some b
    | _ => none
  else none

/-- Where marks lead inside a body, one after the other. -/
def run (b : Body) (ms : List Mark) : Option Body := ms.foldlM step b

theorem run_nil (b : Body) : b.run [] = some b := rfl

theorem run_cons (b : Body) (m : Mark) (ms : List Mark) :
    b.run (m :: ms) = (b.step m).bind (·.run ms) := rfl

theorem run_append (b : Body) (ms ms' : List Mark) :
    b.run (ms ++ ms') = (b.run ms).bind (·.run ms') :=
  List.foldlM_append ..

variable {b : Body} {enc : Enclosing}

/-! ## Expressions in a body -/

theorem step_expr {s s' : ExprSpot} {m : Mark} (h : s.step m = some s') :
    step ⟨enc, .expr s⟩ m = some ⟨enc, .expr s'⟩ := by
  unfold ExprSpot.step at h
  split at h
  · next he =>
    rw [step, if_pos (show expects ⟨enc, .expr s⟩ _ = true from he)]
    split at h
    · next hf =>
      cases h
      simp [feed, hf, ofExprStep]
    · cases h
  · cases h

theorem run_expr {s s' : ExprSpot} {ms : List Mark} (h : s.run ms = some s') :
    run ⟨enc, .expr s⟩ ms = some ⟨enc, .expr s'⟩ := by
  induction ms generalizing s with
  | nil => cases h; rfl
  | cons m ms ih =>
    rw [ExprSpot.run_cons] at h
    obtain ⟨s1, hs1, h⟩ := Option.bind_eq_some_iff.1 h
    rw [run_cons, step_expr hs1]
    exact ih h

/-- Where a mark leads after a complete operand, out of the expression or not. -/
theorem step_complete {s : ExprSpot} {e : ExprTree} {p : Pending} {m : Mark} {next : ExprStep}
    (h : s.complete? = some (e, p)) (hlead : ExprSpot.OperatorLeads m.token e p next) :
    step ⟨enc, .expr s⟩ m = some (ofExprStep enc next) := by
  obtain ⟨he, hf⟩ := ExprSpot.feed_complete h hlead
  rw [step, if_pos (show expects ⟨enc, .expr s⟩ m.terminal = true from he)]
  simp [feed, hf]

/-! ## Where a statement must follow -/

/-- What is open around a statement that must follow at a place, if one must. -/
def ready? (b : Body) : Option Enclosing :=
  match b.spot with
  | .opened | .branch => some b.enclosing
  | .after s => some (b.enclosing.settle s)
  | _ => none

theorem step_ready {m : Mark} (hb : b.ready? = some enc)
    (hm : Expectation.statement m.terminal = true) : b.step m = start m.token enc := by
  obtain ⟨e, spot⟩ := b
  have hrbrace : m.token.terminal ≠ .sign .rbrace := by
    show m.terminal ≠ _
    intro h
    rw [h] at hm
    cases hm
  have helse : m.token.terminal ≠ .keyword .else_ := by
    show m.terminal ≠ _
    intro h
    rw [h] at hm
    cases hm
  cases spot with
  | opened =>
    cases hb
    simp only [step, expects, hm, Bool.or_true, if_true, feed, next, hrbrace, if_false]
    cases start m.token e <;> rfl
  | branch =>
    cases hb
    simp only [step, expects, hm, if_true, feed]
    cases start m.token e <;> rfl
  | after s =>
    cases hb
    simp only [step, expects, hm, Bool.or_true, if_true, feed, next, hrbrace, helse, if_false]
    cases start m.token (e.settle s) <;> rfl
  | _ => cases hb

/-- A postfix expression starts with a class name or another operand that a statement
can start with. -/
theorem receiver_marks {e : Expr} (he : e.Everywhere Expr.Faithful) (h7 : e.level = 7) :
    ∃ m ms, e.marks = m :: ms ∧
      (m.terminal = .className ∨ Expectation.plainOperand m.terminal = true) := by
  match e with
  | .var .. => exact ⟨_, _, rfl, .inr rfl⟩
  | .field object w l =>
    obtain ⟨m, ms, hms, hm⟩ := receiver_marks he.2 he.1
    exact ⟨m, _, by rw [Expr.marks, hms]; rfl, hm⟩
  | .element array index l =>
    obtain ⟨m, ms, hms, hm⟩ := receiver_marks he.2.1 he.1
    exact ⟨m, _, by rw [Expr.marks, hms]; rfl, hm⟩
  | .staticCall .. => exact ⟨_, _, rfl, .inl rfl⟩
  | .virtualCall receiver w arguments l =>
    obtain ⟨m, ms, hms, hm⟩ := receiver_marks he.2.1 he.1
    exact ⟨m, _, by rw [Expr.marks, hms]; rfl, hm⟩
  | .localCall .. => exact ⟨_, _, rfl, .inr rfl⟩
  | .this _ => exact ⟨_, _, rfl, .inr rfl⟩
  | .newObject .. => exact ⟨_, _, rfl, .inr rfl⟩
  | .newArray .. => exact ⟨_, _, rfl, .inr rfl⟩
  | .length array l =>
    obtain ⟨m, ms, hms, hm⟩ := receiver_marks he.2 he.1
    exact ⟨m, _, by rw [Expr.marks, hms]; rfl, hm⟩
  | .binary op left right l =>
    have := Pending.level_le_five op
    exact absurd (show op.level = 7 from h7) (by omega)
  | .unary .. => exact absurd (show 6 = 7 from h7) (by omega)
  | .literal (.bool b) _ => cases b <;> exact ⟨_, _, rfl, .inr rfl⟩
  | .literal (.integer _) _ => exact ⟨_, _, rfl, .inr rfl⟩
  | .literal (.string _) _ => exact ⟨_, _, rfl, .inr rfl⟩
  | .literal .null _ => exact ⟨_, _, rfl, .inr rfl⟩
  | .paren .. => exact ⟨_, _, rfl, .inr rfl⟩

theorem start_plain {m : Mark} (hm : Expectation.plainOperand m.terminal = true) :
    start m.token enc =
      (ExprSpot.start m.token (.bottom .statement)).map fun s => ⟨enc, .expr s⟩ := by
  cases m with
  | keyword k => cases k <;> first | rfl | cases hm
  | sign s => cases s <;> first | rfl | cases hm
  | className c => cases hm
  | brackets => cases hm
  | _ => rfl

theorem statement_of_plain {t : Terminal}
    (h : t = .className ∨ Expectation.plainOperand t = true) :
    Expectation.statement t = true := by
  rcases h with rfl | h
  · rfl
  · cases t with
    | keyword k => cases k <;> first | rfl | cases h
    | sign s => cases s <;> first | rfl | cases h
    | _ => first | rfl | cases h

theorem start_of_step {s : ExprSpot} {p : Pending} {m : Mark}
    (h : (ExprSpot.operand p).step m = some s) : ExprSpot.start m.token p = some s := by
  unfold ExprSpot.step at h
  split at h
  · rw [ExprSpot.feed] at h
    cases hs : ExprSpot.start m.token p with
    | none => simp [hs] at h
    | some s' => simpa [hs] using h
  · cases h

/-- A statement may start with a postfix expression. A class name there might start a
declaration too, so that it is only with the dot after it that the expression starts. -/
theorem run_receiver {e : Expr} (he : e.Everywhere Expr.Faithful) (h7 : e.level = 7)
    (hb : b.ready? = some enc) :
    ∃ s, b.run e.marks = some ⟨enc, .expr s⟩ ∧
      s.complete? = some (e.tree, .bottom .statement) := by
  obtain ⟨s, hs, hc⟩ := (ExprSpot.run_marks (p := .bottom .statement) he (Nat.zero_le _)
    fun h => by omega).complete h7
  obtain ⟨m, ms, hms, hm⟩ := receiver_marks he h7
  refine ⟨s, ?_, hc⟩
  rw [hms, ExprSpot.run_cons] at hs
  obtain ⟨s1, hs1, hs⟩ := Option.bind_eq_some_iff.1 hs
  have hstart := start_of_step hs1
  rw [hms, run_cons, step_ready hb (statement_of_plain hm)]
  rcases hm with hm | hm
  · obtain ⟨c, rfl⟩ : ∃ c, m = .className c := by cases m <;> first | exact ⟨_, rfl⟩ | cases hm
    cases hstart
    cases ms with
    | nil => cases hs; cases hc
    | cons m' ms =>
      rw [ExprSpot.run_cons] at hs
      obtain ⟨s2, hs2, hs⟩ := Option.bind_eq_some_iff.1 hs
      have hdot : m' = .sign .dot := by
        unfold ExprSpot.step at hs2
        split at hs2
        · next hd =>
          have hd : m'.terminal = .sign .dot := by
            simpa [ExprSpot.expects, Expectation.only] using hd
          cases m' <;> simp_all [Mark.terminal]
        · cases hs2
      subst hdot
      cases hs2
      exact run_expr hs
  · rw [start_plain hm, hstart]
    exact run_expr hs

/-! ## Declarations and operands of statements -/

/-- A statement may start with a type and the name that it declares. -/
theorem run_declared {type : TypeRef} (hd : 0 ≤ type.dimension) (w : String)
    (hb : b.ready? = some enc) :
    b.run (type.marks ++ [.name w]) = some ⟨enc, .declaredName type.onOneLine ⟨w, 1⟩⟩ := by
  have hstep (t : TypeRef) : step ⟨enc, .declared t⟩ .brackets =
      some ⟨enc, .declared t.array⟩ := rfl
  obtain ⟨base, dimension, line⟩ := type
  cases base with
  | primitive p =>
    have htype := foldlM_type hstep hd (s := b) (by
      rw [step_ready hb (by cases p <;> rfl)]
      cases p <;> rfl)
    rw [run_append, run, htype]
    rfl
  | user c =>
    have hfirst : b.step (.className c) = some ⟨enc, .className ⟨c, 1⟩⟩ := step_ready hb rfl
    obtain ⟨n, rfl⟩ : ∃ n : Nat, dimension = n :=
      ⟨dimension.toNat, (Int.toNat_of_nonneg hd).symm⟩
    cases n with
    | zero =>
      show b.run [.className c, .name w] = _
      rw [run_cons, hfirst]
      rfl
    | succ n =>
      have htype := foldlM_classType hstep n hfirst rfl
      rw [run_append, run]
      refine (congrArg (Option.bind · _) htype).trans ?_
      rfl

/-- Where an operand must follow, an expression is read up to the mark that ends its
statement or its condition. -/
theorem run_closed (enc : Enclosing) (purpose : Purpose) {e : Expr}
    (he : e.Everywhere Expr.Faithful) {m : Mark} {next : ExprStep} (hp : purpose ≠ .statement)
    (hclose : ExprSpot.CloseLeads m.token e.tree (.bottom purpose) next) :
    run ⟨enc, .expr (.operand (.bottom purpose))⟩ (e.marks ++ [m]) =
      some (ofExprStep enc next) := by
  obtain ⟨s, x, q, hs, hc, ha⟩ := (ExprSpot.run_marks (p := .bottom purpose) he (Nat.zero_le _)
    fun _ h => hp (by cases h; rfl)).closed fun _ => rfl
  rw [run_append, run_expr hs, Option.bind_some, run_cons, step_complete hc (.close ha hclose)]
  rfl

/-- A word that wants a condition, and the condition in parentheses, lead to the branch that
follows them. -/
theorem run_heading {word : Keyword} {spot : Spot} {purpose : Purpose} {condition : Expr}
    {next : ExprStep} (hword : b.step (.keyword word) = some ⟨enc, spot⟩)
    (hparen : step ⟨enc, spot⟩ (.sign .lparen) = some ⟨enc, .expr (.operand (.bottom purpose))⟩)
    (he : condition.Everywhere Expr.Faithful) (hp : purpose ≠ .statement)
    (hclose : ExprSpot.CloseLeads (Mark.sign .rparen).token condition.tree (.bottom purpose) next) :
    b.run ([.keyword word, .sign .lparen] ++ condition.marks ++ [.sign .rparen]) =
      some (ofExprStep enc next) := by
  rw [List.append_assoc, run_append, run_cons, hword, Option.bind_some, run_cons, hparen]
  exact run_closed enc purpose he hp hclose

/-- After `return` an operand is read like anywhere else. -/
theorem step_return {b' : Body} {line : Nat} {m : Mark}
    (h : step ⟨enc, .expr (.operand (.bottom (.returned line)))⟩ m = some b') :
    step ⟨enc, .returnWord line⟩ m = some b' := by
  unfold step at h ⊢
  split at h
  · next he =>
    have he : Expectation.operand m.terminal = true := he
    have hne : m.token.terminal ≠ .sign .semicolon := by
      show m.terminal ≠ _
      intro hm
      rw [hm] at he
      cases he
    rw [if_pos (by simp [expects, he])]
    simp only [feed, hne, if_false, ExprSpot.feed, Option.map_map] at h ⊢
    exact h
  · cases h

/-! ## Statements -/

/-- The marks of a statement lead from where a statement must follow to where one is
complete, and the two make the same of what is open around, whatever comes next. -/
def ReadBack (s : Stmt Expr) (b : Body) (enc : Enclosing) : Prop :=
  ∃ enc' s', b.run s.marks = some ⟨enc', .after s'⟩ ∧ enc'.settle s' = enc.settle s.tree ∧
    (s.endsOpen = false → enc'.attachElse? s' = enc.attachElse? s.tree)

/-- A statement is read back if it is itself what is complete after its marks. -/
theorem ReadBack.of_run {s : Stmt Expr} (h : b.run s.marks = some ⟨enc, .after s.tree⟩) :
    ReadBack s b enc :=
  ⟨enc, s.tree, h, rfl, fun _ => rfl⟩

/-- Complete statements put one after the other into the braces around them. -/
def settleAll (enc : Enclosing) (ss : List StmtTree) : Enclosing :=
  ss.foldl (fun e s => e.settle s) enc

theorem settleAll_block (line : Nat) (earlier : List StmtTree) (outer : Enclosing)
    (ss : List StmtTree) :
    settleAll (.block line earlier outer) ss = .block line (ss.reverse ++ earlier) outer := by
  induction ss generalizing earlier with
  | nil => rfl
  | cons s ss ih =>
    show settleAll (.block line (s :: earlier) outer) ss = _
    rw [ih]
    simp

theorem settleAll_body (earlier ss : List StmtTree) :
    settleAll (.body earlier) ss = .body (ss.reverse ++ earlier) := by
  induction ss generalizing earlier with
  | nil => rfl
  | cons s ss ih =>
    show settleAll (.body (s :: earlier)) ss = _
    rw [ih]
    simp

/-- A closing brace between statements closes what is open around them. -/
theorem feed_close (hb : b.ready? = some enc) (hne : b.spot ≠ .branch) :
    b.expects (Mark.sign .rbrace).terminal = true ∧
      b.feed (Mark.sign .rbrace).token = close enc := by
  obtain ⟨e, spot⟩ := b
  cases spot with
  | opened => cases hb; exact ⟨rfl, rfl⟩
  | after s => cases hb; exact ⟨rfl, rfl⟩
  | branch => exact absurd rfl hne
  | _ => cases hb

mutual

/-- A statement of the language is read back where a statement must follow. -/
theorem run_marks {s : Stmt Expr} (hf : s.Everywhere Stmt.Faithful Expr.Faithful)
    (hl : s.Everywhere Stmt.Lawful Expr.Lawful) {b : Body} {enc : Enclosing}
    (hb : b.ready? = some enc) : ReadBack s b enc := by
  cases s with
  | assign target value l =>
    have h7 : target.level = 7 := by
      have hloc : target.isLocation = true := hl.1
      cases target <;> first | rfl | cases hloc
    obtain ⟨s, hs, hc⟩ := run_receiver hf.2.1 h7 hb
    refine .of_run ?_
    simp only [Stmt.marks, List.append_assoc, List.cons_append]
    rw [run_append, hs, Option.bind_some, run_cons, step_complete hc (.target rfl)]
    exact run_closed enc _ hf.2.2 (by simp) (.assigned rfl)
  | call e l =>
    have h7 : e.level = 7 := by
      have hcall : e.isCall = true := hl.1
      cases e <;> first | rfl | cases hcall
    obtain ⟨s, hs, hc⟩ := run_receiver hf.2 h7 hb
    refine .of_run ?_
    rw [Stmt.marks, run_append, hs, Option.bind_some, run_cons,
      step_complete hc (.close rfl (.expression rfl))]
    rfl
  | return_ value l =>
    have hfirst : b.step (.keyword .return_) = some ⟨enc, .returnWord 1⟩ := step_ready hb rfl
    refine .of_run ?_
    rw [Stmt.marks, List.cons_append, run_cons, hfirst, Option.bind_some]
    cases value with
    | none => rfl
    | some e =>
      have hvalue := run_closed enc (.returned 1) (m := .sign .semicolon) (hf.2 e rfl) (by simp)
        (.returned rfl)
      obtain ⟨m, ms, hms⟩ : ∃ m ms, e.marks ++ [.sign .semicolon] = m :: ms :=
        List.exists_cons_of_ne_nil (by simp)
      rw [hms, run_cons] at hvalue
      obtain ⟨b', hb', hvalue⟩ := Option.bind_eq_some_iff.1 hvalue
      rw [Expr.marks?, hms, run_cons, step_return hb']
      exact hvalue
  | ifThen condition body l =>
    have hif : b.step (.keyword .if_) = some ⟨enc, .ifWord 1⟩ := step_ready hb rfl
    have hheading := run_heading hif rfl hf.2.1 (by simp) (.ifCondition rfl)
    obtain ⟨enc', s', hs, hsettle, -⟩ := run_marks hf.2.2 hl.2.2
      (b := ⟨.thenBranch 1 condition.tree enc, .branch⟩) rfl
    refine ⟨enc', s', ?_, hsettle, fun h => absurd h (by simp [Stmt.endsOpen])⟩
    rw [Stmt.marks, List.append_cons _ _ body.marks, run_append, hheading]
    exact hs
  | ifElse condition body otherwise l =>
    have hif : b.step (.keyword .if_) = some ⟨enc, .ifWord 1⟩ := step_ready hb rfl
    have hheading := run_heading hif rfl hf.2.1 (by simp) (.ifCondition rfl)
    obtain ⟨enc', s', hs, -, helse⟩ := run_marks hf.2.2.1 hl.2.2.1
      (b := ⟨.thenBranch 1 condition.tree enc, .branch⟩) rfl
    obtain ⟨enc'', s'', hs', hsettle, helse'⟩ := run_marks hf.2.2.2 hl.2.2.2
      (b := ⟨.elseBranch 1 condition.tree body.tree enc, .branch⟩) rfl
    refine ⟨enc'', s'', ?_, hsettle, helse'⟩
    -- the `else` finds this `if`: the statement before it leaves none open
    have hstep : step ⟨enc', .after s'⟩ (.keyword .else_) =
        some ⟨.elseBranch 1 condition.tree body.tree enc, .branch⟩ := by
      have helse := helse hf.1
      simp [step, expects, feed, Mark.token, Mark.terminal, helse, Enclosing.attachElse?]
    rw [Stmt.marks, List.append_cons _ _ body.marks, run_append, run_append, hheading,
      Option.bind_some, ofExprStep, hs, Option.bind_some, run_cons, hstep]
    exact hs'
  | while_ condition body l =>
    have hwhile : b.step (.keyword .while_) = some ⟨enc, .whileWord 1⟩ := step_ready hb rfl
    have hheading := run_heading hwhile rfl hf.2.1 (by simp) (.whileCondition rfl)
    obtain ⟨enc', s', hs, hsettle, helse⟩ := run_marks hf.2.2 hl.2.2
      (b := ⟨.loop 1 condition.tree enc, .branch⟩) rfl
    refine ⟨enc', s', ?_, hsettle, helse⟩
    rw [Stmt.marks, List.append_cons _ _ body.marks, run_append, hheading]
    exact hs
  | break_ l =>
    have hfirst : b.step (.keyword .break_) = some ⟨enc, .breakWord 1⟩ := step_ready hb rfl
    refine .of_run ?_
    rw [Stmt.marks, run_cons, hfirst]
    rfl
  | continue_ l =>
    have hfirst : b.step (.keyword .continue_) = some ⟨enc, .continueWord 1⟩ := step_ready hb rfl
    refine .of_run ?_
    rw [Stmt.marks, run_cons, hfirst]
    rfl
  | block body l scope =>
    have hfirst : b.step (.sign .lbrace) = some ⟨.block 1 [] enc, .opened⟩ := step_ready hb rfl
    obtain ⟨b', hb', hready, hne⟩ := run_marksOf hf.2 hl.2
      (b := ⟨.block 1 [] enc, .opened⟩) rfl (by simp)
    obtain ⟨he, hclose⟩ := feed_close hready hne
    refine .of_run ?_
    rw [Stmt.marks, List.cons_append, run_cons, hfirst, Option.bind_some, run_append, hb',
      Option.bind_some, run_cons, step, if_pos he, hclose, settleAll_block]
    simp [close, Stmt.tree, run_nil]
  | localVar type w initial l =>
    have hdeclared := run_declared hf.1 w hb
    refine .of_run ?_
    cases initial with
    | none =>
      have hmarks : (Stmt.localVar type w none l).marks =
          (type.marks ++ [.name w]) ++ [.sign .semicolon] := by simp [Stmt.marks]
      rw [hmarks, run_append, hdeclared]
      rfl
    | some e =>
      have hmarks : (Stmt.localVar type w (some e) l).marks =
          (type.marks ++ [.name w]) ++ .sign .assign :: (e.marks ++ [.sign .semicolon]) := by
        simp [Stmt.marks]
      rw [hmarks, run_append, hdeclared, Option.bind_some, run_cons]
      show run ⟨enc, .expr (.operand (.bottom (.initial type.onOneLine ⟨w, 1⟩)))⟩ _ = _
      exact run_closed enc _ (hf.2 e rfl) (by simp) (.initial rfl)

/-- Statements are read back one after the other. -/
theorem run_marksOf {ss : List (Stmt Expr)}
    (hf : Stmt.AllEverywhere Stmt.Faithful Expr.Faithful ss)
    (hl : Stmt.AllEverywhere Stmt.Lawful Expr.Lawful ss) {b : Body} {enc : Enclosing}
    (hb : b.ready? = some enc) (hne : b.spot ≠ .branch) :
    ∃ b', b.run (Stmt.marksOf ss) = some b' ∧
      b'.ready? = some (settleAll enc (Stmt.trees ss)) ∧ b'.spot ≠ .branch := by
  cases ss with
  | nil => exact ⟨b, rfl, hb, hne⟩
  | cons s ss =>
    obtain ⟨enc', s', hs, hsettle, -⟩ := run_marks hf.1 hl.1 hb
    have hafter : ready? ⟨enc', .after s'⟩ = some (enc.settle s.tree) := by
      rw [← hsettle]
      rfl
    obtain ⟨b', hb', hready, hne'⟩ := run_marksOf hf.2 hl.2 hafter (by simp)
    refine ⟨b', ?_, hready, hne'⟩
    rw [Stmt.marksOf, run_append, hs]
    exact hb'

end

end Body

end IcFront
