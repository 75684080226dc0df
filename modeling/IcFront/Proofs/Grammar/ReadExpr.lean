import IcFront.Proofs.Grammar.ExprAccount
import IcFront.Proofs.Grammar.Written

/-!
# Reading expressions back

What the places in an expression make of an expression's marks, one by one
(`ExprSpot.run`). The marks of an expression that is written on the first line lead
from a place where an operand must follow to one where the operand is complete
(`ExprSpot.run_marks`). If it is postfix, it stands there as it is. Otherwise its
outermost operators still wait, and what they make of it when they are applied is what
they would have made of the whole: that is what the levels of the operands are for.
-/

namespace IcFront

/-- A mark as a token on the first line. -/
def Mark.token (m : Mark) : Token := ⟨m.terminal, m.spelling, 1, 0⟩

/-! ## Types -/

section Types

variable {σ : Type} {step : σ → Mark → Option σ} {place : TypeRef → σ}

/-- Where brackets add to a type, any number of them does. -/
theorem foldlM_brackets (hstep : ∀ t, step (place t) .brackets = some (place t.array))
    (type : TypeRef) (n : Nat) :
    (List.replicate n Mark.brackets).foldlM step (place type) =
      some (place { type with dimension := type.dimension + n }) := by
  induction n generalizing type with
  | zero => simp
  | succ n ih =>
    have harray : ({ type.array with dimension := type.array.dimension + n } : TypeRef) =
        { type with dimension := type.dimension + (n + 1 : Nat) } := by
      simp [TypeRef.array]
      omega
    rw [List.replicate_succ, List.foldlM_cons, hstep, ← harray]
    exact ih type.array

/-- Where the base of a type leads to a place for the type, the whole type does. -/
theorem foldlM_type (hstep : ∀ t, step (place t) .brackets = some (place t.array))
    {type : TypeRef} (hd : 0 ≤ type.dimension) {s : σ}
    (hfirst : step s type.base.mark = some (place ⟨type.base, 0, 1⟩)) :
    type.marks.foldlM step s = some (place type.onOneLine) := by
  rw [TypeRef.marks, List.foldlM_cons, hfirst]
  refine (foldlM_brackets hstep ⟨type.base, 0, 1⟩ type.dimension.toNat).trans ?_
  simp [TypeRef.onOneLine, Int.toNat_of_nonneg hd]

/-- A type that starts with the name of a class may take a detour through a place that
only knows the name: brackets lead from it to a place for the type too. -/
theorem foldlM_classType (hstep : ∀ t, step (place t) .brackets = some (place t.array))
    {c : String} (dimension : Nat) {s s' : σ} (hfirst : step s (.className c) = some s')
    (hclass : step s' .brackets = some (place ⟨.user c, 1, 1⟩)) :
    (TypeRef.marks ⟨.user c, dimension + 1, 1⟩).foldlM step s =
      some (place ⟨.user c, dimension + 1, 1⟩) := by
  have hmarks : TypeRef.marks ⟨.user c, dimension + 1, 1⟩ =
      .className c :: .brackets :: List.replicate dimension .brackets := rfl
  rw [hmarks, List.foldlM_cons, hfirst]
  show List.foldlM step s' _ = _
  rw [List.foldlM_cons, hclass]
  refine (foldlM_brackets hstep ⟨.user c, 1, 1⟩ dimension).trans ?_
  simp [Int.add_comm]

end Types

namespace ExprSpot

/-! ## Places in an expression -/

/-- Where a mark that is expected leads inside an expression. -/
def step (s : ExprSpot) (m : Mark) : Option ExprSpot :=
  if s.expects m.terminal then
    match s.feed m.token with
    | some (.inside s) => some s
    | _ => none
  else none

/-- Where marks lead inside an expression, one after the other. -/
def run (s : ExprSpot) (ms : List Mark) : Option ExprSpot := ms.foldlM step s

theorem run_cons (s : ExprSpot) (m : Mark) (ms : List Mark) :
    s.run (m :: ms) = (s.step m).bind (·.run ms) := rfl

theorem run_append (s : ExprSpot) (ms ms' : List Mark) :
    s.run (ms ++ ms') = (s.run ms).bind (·.run ms') :=
  List.foldlM_append ..

/-- The operand that is complete at a place, and what is open around it. -/
def complete? : ExprSpot → Option (ExprTree × Pending)
  | name w p => some (.var w, p)
  | member object w p => some (.field object w, p)
  | operator e p => some (e, p)
  | _ => none

/-- Where a token leads after a complete operand, it is looked for and leads from any place
where that operand is complete. -/
theorem feed_complete {s : ExprSpot} {e : ExprTree} {p : Pending} {t : Token} {step : ExprStep}
    (h : s.complete? = some (e, p)) (hlead : OperatorLeads t e p step) :
    s.expects t.terminal = true ∧ s.feed t = some step := by
  have hexpected := hlead.expected
  rw [feed_eq_some_iff]
  cases s with
  | name w p => cases h; exact ⟨by simp [expects, hexpected], .var hlead⟩
  | member object w p => cases h; exact ⟨by simp [expects, hexpected], .field hlead⟩
  | operator e p => cases h; exact ⟨hexpected, .operator hlead⟩
  | _ => cases h

/-- Where a mark leads after a complete operand. -/
theorem step_complete {s : ExprSpot} {e : ExprTree} {p : Pending} {m : Mark} {next : ExprSpot}
    (h : s.complete? = some (e, p)) (hlead : OperatorLeads m.token e p (.inside next)) :
    s.step m = some next := by
  obtain ⟨he, hf⟩ := feed_complete h hlead
  rw [step, if_pos (show s.expects m.terminal = true from he), hf]

/-- The first of some arguments is read like any other. -/
theorem step_firstArgument {c : Callee} {p : Pending} {m : Mark} {s : ExprSpot}
    (h : (operand (.argument c [] p)).step m = some s) : (firstArgument c p).step m = some s := by
  unfold step at h ⊢
  split at h
  · next he =>
    have he : Expectation.operand m.terminal = true := he
    have hne : m.terminal ≠ .sign .rparen := by
      intro hm
      rw [hm] at he
      cases he
    rw [if_pos (by simp [expects, he])]
    rwa [feed, if_neg (show m.token.terminal ≠ _ from hne)]
  · cases h

end ExprSpot

theorem Pending.apply_of_floor {p : Pending} {level : Nat} (h : p.floor ≤ level)
    (hlevel : level ≤ 5) (e : ExprTree) : p.apply level e = (e, p) := by
  cases p with
  | unary op line outer =>
    have : 6 ≤ level := h
    omega
  | binary left op line outer =>
    have : op.level + 1 ≤ level := h
    rw [apply, if_neg (by omega)]
  | _ => rfl

theorem UnaryOp.sign_token (op : UnaryOp) (p : Pending) :
    (ExprSpot.operand p).step (.sign op.sign) = some (.operand (.unary op 1 p)) := by
  cases op <;> rfl

namespace ExprSpot

/-- After `new`, the marks of a type and an opening bracket lead to the size. -/
theorem run_newArray {type : TypeRef} (hd : 0 ≤ type.dimension) (p : Pending) :
    (newWord 1 p).run (type.marks ++ [.sign .lbracket]) =
      some (operand (.size 1 type.onOneLine p)) := by
  have hstep (t : TypeRef) : (newType 1 t p).step .brackets = some (newType 1 t.array p) := rfl
  obtain ⟨base, dimension, line⟩ := type
  cases base with
  | primitive b =>
    have htype := foldlM_type hstep hd (s := newWord 1 p) (by cases b <;> rfl)
    rw [run_append, run, htype]
    rfl
  | user c =>
    obtain ⟨n, rfl⟩ : ∃ n : Nat, dimension = n :=
      ⟨dimension.toNat, (Int.toNat_of_nonneg hd).symm⟩
    cases n with
    | zero => rfl
    | succ n =>
      have htype := foldlM_classType hstep n (c := c) (s := newWord 1 p) rfl rfl
      rw [run_append, run]
      refine (congrArg (Option.bind · _) htype).trans ?_
      rfl

/-- The marks of an expression lead from where an operand must follow to where one is
complete. Operators of the expression may still wait there, but when they are applied
they make the same of it as if the expression were one operand. A postfix expression is
one operand. -/
def ReadBack (e : Expr) (p : Pending) : Prop :=
  ∃ s x q, (operand p).run e.marks = some s ∧ s.complete? = some (x, q) ∧
    (∀ level ≤ e.level, q.apply level x = p.apply level e.tree) ∧
    (e.level = 7 → x = e.tree ∧ q = p)

theorem ReadBack.complete {e : Expr} {p : Pending} (h : ReadBack e p) (h7 : e.level = 7) :
    ∃ s, (operand p).run e.marks = some s ∧ s.complete? = some (e.tree, p) := by
  obtain ⟨s, x, q, hs, hc, -, hx⟩ := h
  obtain ⟨rfl, rfl⟩ := hx h7
  exact ⟨s, hs, hc⟩

/-- An expression is read back if its marks lead to one operand. -/
theorem ReadBack.of_complete {e : Expr} {p : Pending} {s : ExprSpot}
    (hs : (operand p).run e.marks = some s) (hc : s.complete? = some (e.tree, p)) :
    ReadBack e p :=
  ⟨s, _, _, hs, hc, fun _ _ => rfl, fun _ => ⟨rfl, rfl⟩⟩

/-- Inside brackets of any kind, all that is left of an expression is one operand. -/
theorem ReadBack.closed {e : Expr} {p : Pending} (h : ReadBack e p)
    (hp : ∀ x, p.apply 0 x = (x, p)) :
    ∃ s x q, (operand p).run e.marks = some s ∧ s.complete? = some (x, q) ∧
      q.apply 0 x = (e.tree, p) := by
  obtain ⟨s, x, q, hs, hc, ha, -⟩ := h
  exact ⟨s, x, q, hs, hc, by rw [ha 0 (Nat.zero_le _), hp]⟩

/-- Arguments and a closing parenthesis complete a call, if they do so where the first
of them must follow. -/
theorem run_arguments {arguments : List Expr} {c : Callee} {p : Pending}
    (h : arguments ≠ [] → (operand (.argument c [] p)).run
        (listed (Expr.marksOf arguments) ++ [.sign .rparen]) =
      some (operator (c.call (Expr.trees arguments)) p)) :
    (firstArgument c p).run (listed (Expr.marksOf arguments) ++ [.sign .rparen]) =
      some (operator (c.call (Expr.trees arguments)) p) := by
  cases arguments with
  | nil => rfl
  | cons a as =>
    have h := h (List.cons_ne_nil a as)
    obtain ⟨m, ms, hms⟩ : ∃ m ms, listed (Expr.marksOf (a :: as)) ++ [.sign .rparen] = m :: ms :=
      List.exists_cons_of_ne_nil (by simp)
    rw [hms, run_cons] at h ⊢
    obtain ⟨s, hs, hrun⟩ := Option.bind_eq_some_iff.1 h
    rw [step_firstArgument hs]
    exact hrun

mutual

/-- A faithful expression is read back where it may stand. -/
theorem run_marks {e : Expr} (he : e.Everywhere Expr.Faithful) {p : Pending}
    (hfloor : p.floor ≤ e.level) (hp : e.level ≤ 5 → p ≠ .bottom .statement) :
    ReadBack e p := by
  have hmayStart {x : Expr} (h7 : x.level = 7) : p.floor ≤ x.level ∧
      (x.level ≤ 5 → p ≠ .bottom .statement) :=
    ⟨by have := p.floor_le_six; omega, fun h => by omega⟩
  cases e with
  | var w l => exact .of_complete rfl rfl
  | field object w l =>
    obtain ⟨s, hs, hc⟩ :=
      (run_marks he.2 (hmayStart he.1).1 (hmayStart he.1).2).complete he.1
    refine .of_complete (s := member object.tree ⟨w, 1⟩ p) ?_ rfl
    rw [Expr.marks, run_append, hs, Option.bind_some, run_cons, step_complete hc (.dot rfl)]
    rfl
  | element array index l =>
    obtain ⟨s, hs, hc⟩ :=
      (run_marks he.2.1 (hmayStart he.1).1 (hmayStart he.1).2).complete he.1
    obtain ⟨s', x, q, hs', hc', ha⟩ := (run_marks (p := .index array.tree p) he.2.2
      (Nat.zero_le _) fun _ => by simp).closed fun _ => rfl
    refine .of_complete (s := operator (.element array.tree index.tree) p) ?_ rfl
    simp only [Expr.marks, List.append_assoc, List.cons_append]
    rw [run_append, hs, Option.bind_some, run_cons, step_complete hc (.index rfl),
      Option.bind_some, run_append, hs', Option.bind_some, run_cons,
      step_complete hc' (.close ha (.element rfl))]
    rfl
  | staticCall c w arguments l =>
    exact .of_complete (run_arguments (c := (.static ⟨c, 1⟩ ⟨w, 1⟩)) fun hne =>
      run_furtherArguments hne he.2 _ [] p) rfl
  | virtualCall receiver w arguments l =>
    obtain ⟨s, hs, hc⟩ :=
      (run_marks he.2.1 (hmayStart he.1).1 (hmayStart he.1).2).complete he.1
    refine .of_complete (s := operator (Callee.call (Expr.trees arguments)
      (.virtual receiver.tree ⟨w, 1⟩)) p) ?_ rfl
    rw [Expr.marks, List.append_assoc, run_append, hs, Option.bind_some, List.cons_append,
      run_cons, step_complete hc (.dot rfl)]
    exact run_arguments (c := (.virtual receiver.tree ⟨w, 1⟩)) fun hne =>
      run_furtherArguments hne he.2.2 _ [] p
  | localCall w arguments l => exact .of_complete (run_arguments (c := (.local ⟨w, 1⟩)) fun hne =>
      run_furtherArguments hne he.2 _ [] p) rfl
  | this l => exact .of_complete rfl rfl
  | newObject c l => exact .of_complete (s := operator (.newObject 1 ⟨c, 1⟩) p) rfl rfl
  | newArray type size l =>
    obtain ⟨s, x, q, hs, hc, ha⟩ := (run_marks (p := .size 1 type.onOneLine p) he.2
      (Nat.zero_le _) fun _ => by simp).closed fun _ => rfl
    refine .of_complete (s := operator (.newArray 1 type.onOneLine size.tree) p) ?_ rfl
    have hmarks : (Expr.newArray type size l).marks = .keyword .new ::
        ((type.marks ++ [.sign .lbracket]) ++ (size.marks ++ [.sign .rbracket])) := by
      simp [Expr.marks]
    rw [hmarks, run_cons]
    show (newWord 1 p).run _ = _
    rw [run_append, run_newArray he.1, Option.bind_some, run_append, hs, Option.bind_some,
      run_cons, step_complete hc (.close ha (.newArray rfl))]
    rfl
  | length array l =>
    obtain ⟨s, hs, hc⟩ :=
      (run_marks he.2 (hmayStart he.1).1 (hmayStart he.1).2).complete he.1
    refine .of_complete (s := operator (.length array.tree) p) ?_ rfl
    rw [Expr.marks, run_append, hs, Option.bind_some, run_cons, step_complete hc (.dot rfl)]
    rfl
  | binary op left right l =>
    obtain ⟨⟨hopleft, hopright⟩, hleft, hright⟩ := he
    have hop := Pending.level_le_five op
    have hp : p ≠ .bottom .statement := hp hop
    have hfloor : p.floor ≤ op.level := hfloor
    obtain ⟨s, x, q, hs, hc, ha, -⟩ := run_marks hleft (Nat.le_trans hfloor hopleft) fun _ => hp
    -- The operator ends all that the left operand has on hold, and nothing that was on hold
    -- before it.
    have hx : q.apply op.level x = (left.tree, p) := by
      rw [ha op.level hopleft, Pending.apply_of_floor hfloor hop]
    obtain ⟨s', x', q', hs', hc', ha', -⟩ :=
      run_marks (p := .binary left.tree op 1 p) hright hopright fun _ => by simp
    refine ⟨s', x', q', ?_, hc', ?_, fun h => absurd (show op.level = 7 from h) (by omega)⟩
    · rw [Expr.marks, run_append, hs, Option.bind_some, run_cons,
        step_complete hc (.binary rfl hx hp)]
      exact hs'
    · intro level hlevel
      have hlevel : level ≤ op.level := hlevel
      rw [ha' level (by omega), Pending.apply, if_pos hlevel]
      rfl
  | unary op operand l =>
    obtain ⟨s, x, q, hs, hc, ha, -⟩ :=
      run_marks (p := .unary op 1 p) he.2 he.1 fun _ => by simp
    refine ⟨s, x, q, ?_, hc, ?_, fun h => absurd (show 6 = 7 from h) (by omega)⟩
    · rw [Expr.marks, run_cons, UnaryOp.sign_token]
      exact hs
    · intro level hlevel
      rw [ha level (Nat.le_trans hlevel he.1)]
      rfl
  | literal value l =>
    cases value with
    | bool b => cases b <;> exact .of_complete rfl rfl
    | _ => exact .of_complete rfl rfl
  | paren inner l =>
    obtain ⟨s, x, q, hs, hc, ha⟩ := (run_marks (p := .paren p) he.2
      (Nat.zero_le _) fun _ => by simp).closed fun _ => rfl
    refine .of_complete (s := operator (.paren inner.tree) p) ?_ rfl
    rw [Expr.marks, List.cons_append, run_cons]
    show (operand (.paren p)).run _ = _
    rw [run_append, hs, Option.bind_some, run_cons, step_complete hc (.close ha (.paren rfl))]
    rfl

/-- Arguments, with those before them, and a closing parenthesis complete a call. -/
theorem run_furtherArguments {arguments : List Expr} (hne : arguments ≠ [])
    (has : Expr.AllEverywhere Expr.Faithful arguments) (c : Callee) (earlier : List ExprTree)
    (p : Pending) :
    (operand (.argument c earlier p)).run
        (listed (Expr.marksOf arguments) ++ [.sign .rparen]) =
      some (operator (c.call (earlier.reverse ++ Expr.trees arguments)) p) := by
  cases arguments with
  | nil => exact absurd rfl hne
  | cons a as =>
    obtain ⟨s, x, q, hs, hc, ha⟩ := (run_marks (p := .argument c earlier p) has.1
      (Nat.zero_le _) fun _ => by simp).closed fun _ => rfl
    cases as with
    | nil =>
      rw [Expr.marksOf, Expr.marksOf, listed_singleton, run_append, hs, Option.bind_some,
        run_cons, step_complete hc (.close ha (.call rfl))]
      rfl
    | cons b bs =>
      have hcomma : s.step (.sign .comma) = some (operand (.argument c (a.tree :: earlier) p)) :=
        step_complete hc (.close ha (.nextArgument rfl))
      have hrest := run_furtherArguments (List.cons_ne_nil b bs) has.2 c (a.tree :: earlier) p
      rw [Expr.marksOf, Expr.marksOf, listed_cons_cons, List.append_assoc, run_append, hs,
        Option.bind_some, List.cons_append, run_cons, hcomma, Option.bind_some]
      refine hrest.trans ?_
      simp [Expr.trees]

end

end ExprSpot

end IcFront
