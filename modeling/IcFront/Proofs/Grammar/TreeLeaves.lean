import IcFront.Proofs.Grammar.Trees
import IcFront.Proofs.Syntax.Leaves

/-!
# The tokens that the lines of parse trees come from

The syntax tree that a parse tree is takes lines from anchors and first parts
(`ExprTree.expr_inherits`, `StmtTree.stmt_inherits`). Members and classes are written out
in the order of the source, as in `IcFront.Proofs.Grammar.Trees`, with the lines that their
tokens are the anchors of.
-/

namespace IcFront

/-! ## Expressions and statements -/

namespace ExprTree

mutual

theorem expr_inherits (e : ExprTree) : e.expr.Everywhere Expr.Inherits := by
  cases e with
  | var w | this line | newObject line c | integer w | string w | bool value line | null line =>
    exact trivial
  | field object w => exact ⟨trivial, expr_inherits object⟩
  | element array index => exact ⟨rfl, expr_inherits array, expr_inherits index⟩
  | staticCall c w arguments => exact ⟨trivial, exprs_inherit arguments⟩
  | virtualCall receiver w arguments =>
    exact ⟨trivial, expr_inherits receiver, exprs_inherit arguments⟩
  | localCall w arguments => exact ⟨trivial, exprs_inherit arguments⟩
  | newArray line type size => exact ⟨trivial, expr_inherits size⟩
  | length array => exact ⟨rfl, expr_inherits array⟩
  | binary left op line right => exact ⟨trivial, expr_inherits left, expr_inherits right⟩
  | unary op line operand => exact ⟨trivial, expr_inherits operand⟩
  | paren inner => exact ⟨rfl, expr_inherits inner⟩

theorem exprs_inherit (es : List ExprTree) : Expr.AllEverywhere Expr.Inherits (exprs es) := by
  cases es with
  | nil => exact trivial
  | cons e es => exact ⟨expr_inherits e, exprs_inherit es⟩

end

theorem map_expr_inherits (e : Option ExprTree) :
    ∀ x ∈ e.map expr, x.Everywhere Expr.Inherits := by
  cases e with
  | none => simp
  | some e => simpa using expr_inherits e

end ExprTree

namespace StmtTree

mutual

theorem stmt_inherits (s : StmtTree) : s.stmt.Everywhere Stmt.Inherits Expr.Inherits := by
  cases s with
  | localVar type w initial => exact ⟨trivial, ExprTree.map_expr_inherits initial⟩
  | assign target value => exact ⟨rfl, target.expr_inherits, value.expr_inherits⟩
  | expression e => exact ⟨rfl, e.expr_inherits⟩
  | return_ line value => exact ⟨trivial, ExprTree.map_expr_inherits value⟩
  | ifThen line condition body => exact ⟨trivial, condition.expr_inherits, stmt_inherits body⟩
  | ifElse line condition body otherwise =>
    exact ⟨trivial, condition.expr_inherits, stmt_inherits body, stmt_inherits otherwise⟩
  | while_ line condition body => exact ⟨trivial, condition.expr_inherits, stmt_inherits body⟩
  | break_ line | continue_ line => exact trivial
  | block line body => exact ⟨trivial, stmts_inherit body⟩

theorem stmts_inherit (ss : List StmtTree) :
    Stmt.AllEverywhere Stmt.Inherits Expr.Inherits (stmts ss) := by
  cases ss with
  | nil => exact trivial
  | cons s ss => exact ⟨stmt_inherits s, stmts_inherit ss⟩

end

end StmtTree

/-! ## Members -/

namespace MemberTree

/-- A member as tokens, in the order of the source. -/
def leaves : MemberTree → List Leaf
  | fields type first further =>
    type.leaves ++
      separated (.plain (.sign .comma))
        ((first :: further).map fun w => [.anchor (.name w.text) w.line]) ++
      [.plain (.sign .semicolon)]
  | method s body =>
    (if s.static then [.plain (.keyword .static)] else []) ++ s.type.leaves ++
      .anchor (.name s.name.text) s.name.line ::
      argumentLeaves ((methodOf s body).formals.map Formal.leaves) ++
      (methodOf s body).form.closingLeaves

theorem leaves_mark (m : MemberTree) : m.leaves.map Leaf.mark = m.marks := by
  cases m with
  | fields type first further =>
    simp [leaves, marks, map_separated, listed_eq_separated, Function.comp_def]
  | method s body =>
    cases hs : s.static <;>
      simp [leaves, marks, hs, argumentLeaves_mark, MethodForm.closingLeaves_mark,
        Function.comp_def, Formal.leaves_mark]

theorem leaves_method {s : Signature} {body : Option (List StmtTree)}
    (h : (method s body).Bodied) : (method s body).leaves = (methodOf s body).leaves := by
  have hopening : (if s.static then [Leaf.plain (.keyword .static)] else []) =
      (methodOf s body).form.opening.map .plain := by
    cases body with
    | none => simp [methodOf, MethodForm.opening, show s.static = true from h]
    | some body => cases hs : s.static <;> simp [methodOf, MethodForm.opening, hs]
  rw [leaves, hopening]
  rfl

end MemberTree

/-! ## Classes -/

namespace ClassTree

/-- A class as tokens, its members in the order of the source. -/
def leaves (c : ClassTree) : List Leaf :=
  classHeadingLeaves c.name.text c.name.line (c.superclass.map (·.text)) ++
    .plain (.sign .lbrace) :: c.members.flatMap MemberTree.leaves ++ [.plain (.sign .rbrace)]

theorem leaves_mark (c : ClassTree) : c.leaves.map Leaf.mark = c.marks := by
  simp [leaves, marks, classHeadingLeaves_mark, List.map_flatMap, MemberTree.leaves_mark]

/-- The arrangement of a class has the class's tokens, with the lines that these are the
anchors of. -/
theorem arranged_leaves {c : ClassTree} (hc : ∀ m ∈ c.members, m.Bodied) :
    c.arranged.leaves = c.decl.leaves := by
  have hmembers := arranged_members (g := MemberTree.leaves) (h := Field.leaves)
    (fun type w => by simp [MemberTree.leaves, Field.leaves, fieldOf, separated])
    (fun s body h => MemberTree.leaves_method h) hc
  rw [leaves, hmembers]
  simp [ClassDecl.leaves, arranged, decl]

theorem decl_inherits (c : ClassTree) : ∀ m ∈ c.decl.methods,
    Stmt.AllEverywhere Stmt.Inherits Expr.Inherits m.form.body := by
  intro m hm
  obtain ⟨member, -, hm⟩ := List.mem_flatMap.1 hm
  cases member with
  | fields type first further => cases hm
  | method s body =>
    obtain rfl := List.mem_singleton.1 hm
    cases body with
    | none => exact trivial
    | some body =>
      have hbody := StmtTree.stmts_inherit body
      cases hs : s.static <;> simpa [methodOf, MethodForm.body, hs] using hbody

end ClassTree

end IcFront
