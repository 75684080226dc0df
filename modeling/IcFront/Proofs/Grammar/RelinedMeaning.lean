import IcFront.Grammar.Meaning
import IcFront.Proofs.Grammar.Relined
import IcFront.Proofs.Steps

/-!
# Meanings with other lines

The rules that the grammar leaves open do not depend on lines. So a parse tree with other
lines has a meaning if the tree has one, and then the meaning is that of the tree, with
those lines in it (`ProgramTree.meaning_reline`). Only what is reported of a tree without
a meaning depends on the lines.
-/

namespace IcFront

/-! ## Computations that give something together -/

section Follows

variable {ε α β α' β' : Type}

/-- A computation gives what another one gives, with `g` put to it, and fails where that
one fails. -/
def Follows (g : α → α') (x : Except ε α) (y : Except ε α') : Prop :=
  y.toOption = x.toOption.map g

namespace Follows

variable {g : α → α'} {h : β → β'} {x : Except ε α} {y : Except ε α'}

theorem pure (a : α) : Follows (ε := ε) g (pure a) (pure (g a)) := rfl

theorem throw (e e' : ε) : Follows g (throw e : Except ε α) (throw e') := rfl

theorem bind {k : α → Except ε β} {k' : α' → Except ε β'} (hx : Follows g x y)
    (hk : ∀ a, Follows h (k a) (k' (g a))) : Follows h (x >>= k) (y >>= k') := by
  cases x with
  | error e =>
    cases y with
    | error e' => rfl
    | ok b => cases hx
  | ok a =>
    cases y with
    | error e' => cases hx
    | ok b =>
      obtain rfl := Option.some.inj hx
      exact hk a

theorem mapM {γ δ : Type} {r : γ → δ} {k : γ → Except ε α} {k' : δ → Except ε α'}
    (hk : ∀ c, Follows g (k c) (k' (r c))) (cs : List γ) :
    Follows (List.map g) (cs.mapM k) ((cs.map r).mapM k') := by
  induction cs with
  | nil => exact pure []
  | cons c cs ih =>
    rw [List.map_cons, List.mapM_cons, List.mapM_cons]
    exact (hk c).bind fun a => ih.bind fun as => pure (a :: as)

theorem foldlM {γ δ : Type} {r : γ → δ} {k : α → γ → Except ε α} {k' : α' → δ → Except ε α'}
    (hk : ∀ a c, Follows g (k a c) (k' (g a) (r c))) (cs : List γ) (a : α) :
    Follows g (cs.foldlM k a) ((cs.map r).foldlM k' (g a)) := by
  induction cs generalizing a with
  | nil => exact pure a
  | cons c cs ih =>
    rw [List.map_cons, List.foldlM_cons, List.foldlM_cons]
    exact (hk a c).bind fun a => ih a

/-- Where a computation gives something, so does one that follows it. -/
theorem eq_ok {a : α} (hx : Follows g x y) (ha : x = .ok a) : y = .ok (g a) := by
  subst ha
  cases y with
  | error e => cases hx
  | ok b => exact congrArg _ (Option.some.inj hx)

/-- What a computation gives that follows another one, that one gives something for. -/
theorem exists_eq_ok {b : α'} (hx : Follows g x y) (hb : y = .ok b) :
    ∃ a, x = .ok a ∧ b = g a := by
  subst hb
  cases x with
  | error e => cases hx
  | ok a => exact ⟨a, rfl, Option.some.inj hx⟩

end Follows

end Follows

variable (f : Nat → Nat)

/-! ## Expressions -/

namespace ExprTree

mutual

theorem meaning_reline (e : ExprTree) :
    Follows (Expr.reline f) e.meaning (e.reline f).meaning := by
  cases e with
  | var w => exact .pure _
  | field object w => exact (meaning_reline object).bind fun o => .pure _
  | element array index =>
    refine (meaning_reline array).bind fun a => (meaning_reline index).bind fun i => ?_
    rw [Expr.line_reline]
    exact .pure (Expr.element a i a.line)
  | staticCall c w arguments => exact (meanings_reline arguments).bind fun as => .pure _
  | virtualCall receiver w arguments =>
    exact (meaning_reline receiver).bind fun r => (meanings_reline arguments).bind fun as => .pure _
  | localCall w arguments => exact (meanings_reline arguments).bind fun as => .pure _
  | this line => exact .pure _
  | newObject line c => exact .pure _
  | newArray line type size =>
    refine (meaning_reline size).bind fun s => ?_
    rw [TypeRef.isVoid_reline]
    cases type.isVoid with
    | true => exact .throw ..
    | false => exact .pure (Expr.newArray type s line)
  | length array =>
    refine (meaning_reline array).bind fun a => ?_
    rw [Expr.line_reline]
    exact .pure (Expr.length a a.line)
  | binary left op line right =>
    exact (meaning_reline left).bind fun l => (meaning_reline right).bind fun r => .pure _
  | unary op line operand => exact (meaning_reline operand).bind fun o => .pure _
  | integer w =>
    rw [reline, meaning, meaning]
    show Follows _ _ (if maxDigits < w.text.length then _ else _)
    split
    · exact .throw ..
    · exact .pure (Expr.literal _ _)
  | string w => exact .pure _
  | bool value line => exact .pure _
  | null line => exact .pure _
  | paren inner =>
    refine (meaning_reline inner).bind fun i => ?_
    rw [Expr.line_reline]
    exact .pure (Expr.paren i i.line)

theorem meanings_reline (es : List ExprTree) :
    Follows (Expr.relineAll f) (meanings es) (meanings (relineAll f es)) := by
  cases es with
  | nil => exact .pure _
  | cons e es =>
    exact (meaning_reline e).bind fun m => (meanings_reline es).bind fun ms => .pure _

end

theorem meaning?_reline (e : Option ExprTree) :
    Follows (Option.map (Expr.reline f)) (meaning? e) (meaning? (e.map (reline f))) := by
  cases e with
  | none => exact .pure _
  | some e => exact (meaning_reline f e).bind fun m => .pure _

end ExprTree

theorem refuseVoid_reline (what : Declared) (type : TypeRef) (w : Word) :
    Follows id (refuseVoid what type w) (refuseVoid what (type.reline f) (w.reline f)) := by
  rw [refuseVoid, refuseVoid, TypeRef.isVoid_reline]
  split
  · exact .throw ..
  · exact .pure ()

/-! ## Statements -/

namespace StmtTree

mutual

theorem meaning_reline (s : StmtTree) :
    Follows (Stmt.reline f) s.meaning (s.reline f).meaning := by
  cases s with
  | localVar type w initial =>
    exact (ExprTree.meaning?_reline f initial).bind fun i =>
      (refuseVoid_reline f _ type w).bind fun _ => .pure _
  | assign target value =>
    refine (target.meaning_reline f).bind fun t => (value.meaning_reline f).bind fun v => ?_
    rw [Expr.isLocation_reline, Expr.line_reline]
    split
    · exact .pure (Stmt.assign t v t.line)
    · exact .throw ..
  | expression e =>
    refine (e.meaning_reline f).bind fun m => ?_
    rw [Expr.isCall_reline, Expr.line_reline]
    split
    · exact .pure (Stmt.call m m.line)
    · exact .throw ..
  | return_ line value => exact (ExprTree.meaning?_reline f value).bind fun v => .pure _
  | ifThen line condition body =>
    exact (condition.meaning_reline f).bind fun c => (meaning_reline body).bind fun b => .pure _
  | ifElse line condition body otherwise =>
    exact (condition.meaning_reline f).bind fun c => (meaning_reline body).bind fun b =>
      (meaning_reline otherwise).bind fun o => .pure _
  | while_ line condition body =>
    exact (condition.meaning_reline f).bind fun c => (meaning_reline body).bind fun b => .pure _
  | break_ line => exact .pure _
  | continue_ line => exact .pure _
  | block line body => exact (meanings_reline body).bind fun b => .pure _

theorem meanings_reline (ss : List StmtTree) :
    Follows (Stmt.relineAll f) (meanings ss) (meanings (relineAll f ss)) := by
  cases ss with
  | nil => exact .pure _
  | cons s ss =>
    exact (meaning_reline s).bind fun m => (meanings_reline ss).bind fun ms => .pure _

end

end StmtTree

/-! ## Declarations -/

theorem FormalTree.meaning_reline (x : FormalTree) :
    Follows (Formal.reline f) x.meaning (x.reline f).meaning :=
  (refuseVoid_reline f _ x.type x.name).bind fun _ => .pure _

theorem fieldMeaning_reline (type : TypeRef) (w : Word) :
    Follows (Field.reline f) (fieldMeaning type w)
      (fieldMeaning (type.reline f) (w.reline f)) :=
  (refuseVoid_reline f _ type w).bind fun _ => .pure _

theorem methodMeaning_reline (s : Signature) (body : Option (List StmtTree)) :
    Follows (Method.reline f) (methodMeaning s body)
      (methodMeaning (s.reline f) (body.map (StmtTree.relineAll f))) := by
  obtain ⟨static, type, w, formals⟩ := s
  refine (Follows.mapM (FormalTree.meaning_reline f) formals).bind fun formals => ?_
  cases body with
  | none =>
    cases static with
    | true => exact .pure _
    | false => exact .throw ..
  | some body =>
    refine (StmtTree.meanings_reline f body).bind fun b => ?_
    cases static <;> exact .pure _

/-- Fields and methods with other lines. -/
def relineMembers (m : List Field × List (Method Expr)) : List Field × List (Method Expr) :=
  (m.1.map (Field.reline f), m.2.map (Method.reline f))

theorem MemberTree.meaning_reline (sofar : List Field × List (Method Expr)) (m : MemberTree) :
    Follows (relineMembers f) (m.meaning sofar)
      ((m.reline f).meaning (relineMembers f sofar)) := by
  cases m with
  | fields type first further =>
    refine (Follows.mapM (fieldMeaning_reline f type) (first :: further)).bind fun fs => ?_
    rw [relineMembers, ← List.map_append]
    exact .pure (sofar.1 ++ fs, sofar.2)
  | method s body =>
    refine (methodMeaning_reline f s body).bind fun x => ?_
    rw [relineMembers, ← List.map_singleton, ← List.map_append]
    exact .pure (sofar.1, sofar.2 ++ [x])

theorem ClassTree.meaning_reline (c : ClassTree) :
    Follows (ClassDecl.reline f) c.meaning (c.reline f).meaning := by
  obtain ⟨w, superclass, members⟩ := c
  refine (Follows.foldlM (MemberTree.meaning_reline f) members ([], [])).bind fun m => ?_
  cases superclass <;> exact .pure _

/-- What a parse tree with other lines means is what the tree means, with those lines. -/
theorem ProgramTree.meaning_reline (p : ProgramTree) :
    Follows (Program.reline f) (ProgramTree.meaning p) (ProgramTree.meaning (p.reline f)) :=
  (Follows.mapM (ClassTree.meaning_reline f) p).bind fun _ => .pure _

end IcFront
