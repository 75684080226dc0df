import IcFront.Proofs.Steps
import IcFront.Proofs.Syntax.Marks
import IcFront.Proofs.Syntax.Shape
import Mathlib.Data.List.Basic

/-!
# What parse trees say

A parse tree is a syntax tree already, but for the rules that it may break:
`ExprTree.expr` and `StmtTree.stmt` build the syntax tree without asking. So a
parse tree's marks and its shape are those of that tree, and when a parse tree has
a meaning, the meaning is that tree and lawful (`ExprTree.meaning_ok`,
`StmtTree.meaning_ok`).

Members and classes are written out in the order of the source. `ClassTree.arranged`
declares the fields one at a time, before the methods: so they stand in the syntax
tree (`ProgramTree.meaning_ok`).
-/

namespace IcFront

/-! ## Expressions -/

namespace ExprTree

mutual

/-- A parse tree as an expression, whether or not it keeps the rules. -/
def expr : ExprTree → Expr
  | var w => .var w.text w.line
  | field object w => .field object.expr w.text w.line
  | element array index => .element array.expr index.expr array.expr.line
  | staticCall c w arguments => .staticCall c.text w.text (exprs arguments) c.line
  | virtualCall receiver w arguments =>
    .virtualCall receiver.expr w.text (exprs arguments) w.line
  | localCall w arguments => .localCall w.text (exprs arguments) w.line
  | this line => .this line
  | newObject line c => .newObject c.text line
  | newArray line type size => .newArray type size.expr line
  | length array => .length array.expr array.expr.line
  | binary left op line right => .binary op left.expr right.expr line
  | unary op line operand => .unary op operand.expr line
  | integer w => .literal (.integer (digitsValue w.text.toList)) w.line
  | string w => .literal (.string (quotedValue w.text)) w.line
  | bool value line => .literal (.bool value) line
  | null line => .literal .null line
  | paren inner => .paren inner.expr inner.expr.line

/-- The trees of a list as expressions. -/
def exprs : List ExprTree → List Expr
  | [] => []
  | e :: es => e.expr :: exprs es

end

theorem exprs_eq_map (es : List ExprTree) : exprs es = es.map expr := by
  induction es with
  | nil => rfl
  | cons e es ih => rw [exprs, ih, List.map_cons]

/-- A parse tree written out as marks. -/
def marks (e : ExprTree) : List Mark := e.expr.marks

mutual

/-- A parse tree that has a meaning means the expression that it is, and that
expression is lawful. -/
theorem meaning_ok {e : ExprTree} {m : Expr} (h : e.meaning = .ok m) :
    m = e.expr ∧ m.Everywhere Expr.Lawful := by
  cases e with
  | var w => cases h; exact ⟨rfl, trivial⟩
  | field object w =>
    obtain ⟨o, ho, h⟩ := Except.bind_eq_ok h
    cases h
    obtain ⟨rfl, lo⟩ := meaning_ok ho
    exact ⟨rfl, trivial, lo⟩
  | element array index =>
    obtain ⟨a, ha, h⟩ := Except.bind_eq_ok h
    obtain ⟨i, hi, h⟩ := Except.bind_eq_ok h
    cases h
    obtain ⟨rfl, la⟩ := meaning_ok ha
    obtain ⟨rfl, li⟩ := meaning_ok hi
    exact ⟨rfl, trivial, la, li⟩
  | staticCall c w arguments =>
    obtain ⟨as, has, h⟩ := Except.bind_eq_ok h
    cases h
    obtain ⟨rfl, las⟩ := meanings_ok has
    exact ⟨rfl, trivial, las⟩
  | virtualCall receiver w arguments =>
    obtain ⟨r, hr, h⟩ := Except.bind_eq_ok h
    obtain ⟨as, has, h⟩ := Except.bind_eq_ok h
    cases h
    obtain ⟨rfl, lr⟩ := meaning_ok hr
    obtain ⟨rfl, las⟩ := meanings_ok has
    exact ⟨rfl, trivial, lr, las⟩
  | localCall w arguments =>
    obtain ⟨as, has, h⟩ := Except.bind_eq_ok h
    cases h
    obtain ⟨rfl, las⟩ := meanings_ok has
    exact ⟨rfl, trivial, las⟩
  | this line => cases h; exact ⟨rfl, trivial⟩
  | newObject line c => cases h; exact ⟨rfl, trivial⟩
  | newArray line type size =>
    obtain ⟨s, hs, h⟩ := Except.bind_eq_ok h
    obtain ⟨rfl, ls⟩ := meaning_ok hs
    cases hv : type.isVoid with
    | true => simp [hv] at h; cases h
    | false =>
      simp only [hv, Bool.false_eq_true, if_false] at h
      cases h
      exact ⟨rfl, hv, ls⟩
  | length array =>
    obtain ⟨a, ha, h⟩ := Except.bind_eq_ok h
    cases h
    obtain ⟨rfl, la⟩ := meaning_ok ha
    exact ⟨rfl, trivial, la⟩
  | binary left op line right =>
    obtain ⟨l, hl, h⟩ := Except.bind_eq_ok h
    obtain ⟨r, hr, h⟩ := Except.bind_eq_ok h
    cases h
    obtain ⟨rfl, ll⟩ := meaning_ok hl
    obtain ⟨rfl, lr⟩ := meaning_ok hr
    exact ⟨rfl, trivial, ll, lr⟩
  | unary op line operand =>
    obtain ⟨o, ho, h⟩ := Except.bind_eq_ok h
    cases h
    obtain ⟨rfl, lo⟩ := meaning_ok ho
    exact ⟨rfl, trivial, lo⟩
  | integer w =>
    simp only [meaning] at h
    split at h
    · cases h
    · cases h; exact ⟨rfl, trivial⟩
  | string w => cases h; exact ⟨rfl, trivial⟩
  | bool value line => cases h; exact ⟨rfl, trivial⟩
  | null line => cases h; exact ⟨rfl, trivial⟩
  | paren inner =>
    obtain ⟨i, hi, h⟩ := Except.bind_eq_ok h
    cases h
    obtain ⟨rfl, li⟩ := meaning_ok hi
    exact ⟨rfl, trivial, li⟩

theorem meanings_ok {es : List ExprTree} {ms : List Expr} (h : meanings es = .ok ms) :
    ms = exprs es ∧ Expr.AllEverywhere Expr.Lawful ms := by
  cases es with
  | nil => cases h; exact ⟨rfl, trivial⟩
  | cons e es =>
    obtain ⟨m, hm, h⟩ := Except.bind_eq_ok h
    obtain ⟨ms, hms, h⟩ := Except.bind_eq_ok h
    cases h
    obtain ⟨rfl, lm⟩ := meaning_ok hm
    obtain ⟨rfl, lms⟩ := meanings_ok hms
    exact ⟨rfl, lm, lms⟩

end

theorem meaning?_ok {e : Option ExprTree} {m : Option Expr} (h : meaning? e = .ok m) :
    m = e.map expr ∧ ∀ x ∈ m, x.Everywhere Expr.Lawful := by
  cases e with
  | none => cases h; simp
  | some e =>
    obtain ⟨x, hx, h⟩ := Except.bind_eq_ok h
    cases h
    obtain ⟨rfl, lx⟩ := meaning_ok hx
    simpa using lx

end ExprTree

/-! ## Statements -/

theorem refuseVoid_ok {what : Declared} {type : TypeRef} {name : Word} {u : Unit}
    (h : refuseVoid what type name = .ok u) : type.isVoid = false := by
  cases hv : type.isVoid with
  | true => simp [refuseVoid, hv] at h
  | false => rfl

namespace StmtTree

mutual

/-- A parse tree as a statement, whether or not it keeps the rules. -/
def stmt : StmtTree → Stmt Expr
  | localVar type w initial => .localVar type w.text (initial.map ExprTree.expr) w.line
  | assign target value => .assign target.expr value.expr target.expr.line
  | expression e => .call e.expr e.expr.line
  | return_ line value => .return_ (value.map ExprTree.expr) line
  | ifThen line condition body => .ifThen condition.expr body.stmt line
  | ifElse line condition body otherwise =>
    .ifElse condition.expr body.stmt otherwise.stmt line
  | while_ line condition body => .while_ condition.expr body.stmt line
  | break_ line => .break_ line
  | continue_ line => .continue_ line
  | block line body => .block (stmts body) line none

/-- The trees of a list as statements. -/
def stmts : List StmtTree → List (Stmt Expr)
  | [] => []
  | s :: ss => s.stmt :: stmts ss

end

/-- A parse tree written out as marks. -/
def marks (s : StmtTree) : List Mark := s.stmt.marks

mutual

/-- A parse tree that has a meaning means the statement that it is, and that
statement is lawful. -/
theorem meaning_ok {s : StmtTree} {m : Stmt Expr} (h : s.meaning = .ok m) :
    m = s.stmt ∧ m.Everywhere Stmt.Lawful Expr.Lawful := by
  cases s with
  | localVar type w initial =>
    obtain ⟨i, hi, h⟩ := Except.bind_eq_ok h
    obtain ⟨u, hu, h⟩ := Except.bind_eq_ok h
    cases h
    obtain ⟨rfl, li⟩ := ExprTree.meaning?_ok hi
    exact ⟨rfl, refuseVoid_ok hu, li⟩
  | assign target value =>
    obtain ⟨t, ht, h⟩ := Except.bind_eq_ok h
    obtain ⟨v, hv, h⟩ := Except.bind_eq_ok h
    obtain ⟨rfl, lt⟩ := ExprTree.meaning_ok ht
    obtain ⟨rfl, lv⟩ := ExprTree.meaning_ok hv
    split at h
    · next hloc => cases h; exact ⟨rfl, hloc, lt, lv⟩
    · cases h
  | expression e =>
    obtain ⟨x, hx, h⟩ := Except.bind_eq_ok h
    obtain ⟨rfl, lx⟩ := ExprTree.meaning_ok hx
    split at h
    · next hcall => cases h; exact ⟨rfl, hcall, lx⟩
    · cases h
  | return_ line value =>
    obtain ⟨v, hv, h⟩ := Except.bind_eq_ok h
    cases h
    obtain ⟨rfl, lv⟩ := ExprTree.meaning?_ok hv
    exact ⟨rfl, trivial, lv⟩
  | ifThen line condition body =>
    obtain ⟨c, hc, h⟩ := Except.bind_eq_ok h
    obtain ⟨b, hb, h⟩ := Except.bind_eq_ok h
    cases h
    obtain ⟨rfl, lc⟩ := ExprTree.meaning_ok hc
    obtain ⟨rfl, lb⟩ := meaning_ok hb
    exact ⟨rfl, trivial, lc, lb⟩
  | ifElse line condition body otherwise =>
    obtain ⟨c, hc, h⟩ := Except.bind_eq_ok h
    obtain ⟨b, hb, h⟩ := Except.bind_eq_ok h
    obtain ⟨o, ho, h⟩ := Except.bind_eq_ok h
    cases h
    obtain ⟨rfl, lc⟩ := ExprTree.meaning_ok hc
    obtain ⟨rfl, lb⟩ := meaning_ok hb
    obtain ⟨rfl, lo⟩ := meaning_ok ho
    exact ⟨rfl, trivial, lc, lb, lo⟩
  | while_ line condition body =>
    obtain ⟨c, hc, h⟩ := Except.bind_eq_ok h
    obtain ⟨b, hb, h⟩ := Except.bind_eq_ok h
    cases h
    obtain ⟨rfl, lc⟩ := ExprTree.meaning_ok hc
    obtain ⟨rfl, lb⟩ := meaning_ok hb
    exact ⟨rfl, trivial, lc, lb⟩
  | break_ line => cases h; exact ⟨rfl, trivial⟩
  | continue_ line => cases h; exact ⟨rfl, trivial⟩
  | block line body =>
    obtain ⟨b, hb, h⟩ := Except.bind_eq_ok h
    cases h
    obtain ⟨rfl, lb⟩ := meanings_ok hb
    exact ⟨rfl, trivial, lb⟩

theorem meanings_ok {ss : List StmtTree} {ms : List (Stmt Expr)} (h : meanings ss = .ok ms) :
    ms = stmts ss ∧ Stmt.AllEverywhere Stmt.Lawful Expr.Lawful ms := by
  cases ss with
  | nil => cases h; exact ⟨rfl, trivial⟩
  | cons s ss =>
    obtain ⟨m, hm, h⟩ := Except.bind_eq_ok h
    obtain ⟨ms, hms, h⟩ := Except.bind_eq_ok h
    cases h
    obtain ⟨rfl, lm⟩ := meaning_ok hm
    obtain ⟨rfl, lms⟩ := meanings_ok hms
    exact ⟨rfl, lm, lms⟩

end

end StmtTree

/-! ## Members -/

/-- A formal parameter, whether or not it keeps the rules. -/
def FormalTree.formal (f : FormalTree) : Formal :=
  { type := f.type, name := f.name.text, line := f.name.line }

theorem FormalTree.meaning_ok {f : FormalTree} {m : Formal} (h : f.meaning = .ok m) :
    m = f.formal ∧ m.type.isVoid = false := by
  obtain ⟨u, hu, h⟩ := Except.bind_eq_ok h
  cases h
  exact ⟨rfl, refuseVoid_ok hu⟩

/-- The field that a name declares, whether or not it keeps the rules. -/
def fieldOf (type : TypeRef) (name : Word) : Field :=
  { type := type, name := name.text, line := name.line }

theorem fieldMeaning_ok {type : TypeRef} {name : Word} {m : Field}
    (h : fieldMeaning type name = .ok m) : m = fieldOf type name ∧ m.type.isVoid = false := by
  obtain ⟨u, hu, h⟩ := Except.bind_eq_ok h
  cases h
  exact ⟨rfl, refuseVoid_ok hu⟩

/-- The method that a signature and a body are, whether or not it keeps the rules. -/
def methodOf (s : Signature) (body : Option (List StmtTree)) : Method Expr where
  form :=
    match body with
    | none => .library
    | some body => if s.static then .static (StmtTree.stmts body) else .virtual (StmtTree.stmts body)
  type := s.type
  name := s.name.text
  formals := s.formals.map FormalTree.formal
  line := s.name.line

theorem methodMeaning_ok {s : Signature} {body : Option (List StmtTree)} {m : Method Expr}
    (h : methodMeaning s body = .ok m) :
    m = methodOf s body ∧ m.Lawful ∧ (body = none → s.static = true) := by
  obtain ⟨formals, hf, h⟩ := Except.bind_eq_ok h
  obtain ⟨rfl, lf⟩ := mapM_ok (P := fun f => f.type.isVoid = false)
    (fun _ _ h => FormalTree.meaning_ok h) hf
  cases body with
  | none =>
    cases hs : s.static with
    | true =>
      simp only [hs, if_true] at h
      cases h
      exact ⟨rfl, ⟨lf, trivial⟩, fun _ => rfl⟩
    | false => simp [hs] at h; cases h
  | some body =>
    obtain ⟨b, hb, h⟩ := Except.bind_eq_ok h
    cases h
    obtain ⟨rfl, lb⟩ := StmtTree.meanings_ok hb
    refine ⟨rfl, ⟨lf, ?_⟩, by simp⟩
    show Stmt.AllEverywhere _ _ (MethodForm.body (if _ then _ else _))
    split <;> exact lb

namespace MemberTree

/-- The fields that a member declares. -/
def fieldsOf : MemberTree → List Field
  | fields type first further => (first :: further).map (fieldOf type)
  | method .. => []

/-- The methods that a member declares. -/
def methodsOf : MemberTree → List (Method Expr)
  | fields .. => []
  | method s body => [methodOf s body]

/-- A method without a body is static. -/
def Bodied : MemberTree → Prop
  | method s none => s.static = true
  | _ => True

theorem meaning_ok {m : MemberTree} {sofar next : List Field × List (Method Expr)}
    (h : m.meaning sofar = .ok next) :
    next = (sofar.1 ++ m.fieldsOf, sofar.2 ++ m.methodsOf) ∧ m.Bodied ∧
      (∀ f ∈ m.fieldsOf, f.type.isVoid = false) ∧ ∀ x ∈ m.methodsOf, x.Lawful := by
  cases m with
  | fields type first further =>
    obtain ⟨fs, hfs, h⟩ := Except.bind_eq_ok h
    cases h
    obtain ⟨rfl, lfs⟩ := mapM_ok (P := fun f => f.type.isVoid = false)
      (fun _ _ h => fieldMeaning_ok h) hfs
    exact ⟨by simp [fieldsOf, methodsOf], trivial, lfs, by simp [methodsOf]⟩
  | method s body =>
    obtain ⟨x, hx, h⟩ := Except.bind_eq_ok h
    cases h
    obtain ⟨rfl, lx, hs⟩ := methodMeaning_ok hx
    refine ⟨by simp [fieldsOf, methodsOf], ?_, by simp [fieldsOf], by simpa [methodsOf] using lx⟩
    cases body with
    | none => exact hs rfl
    | some body => trivial

/-- A member written out as marks, in the order of the source. -/
def marks : MemberTree → List Mark
  | fields type first further =>
    type.marks ++ listed ((first :: further).map fun w => [.name w.text]) ++ [.sign .semicolon]
  | method s body =>
    (if s.static then [.keyword .static] else []) ++ s.type.marks ++ .name s.name.text ::
      argumentMarks ((methodOf s body).formals.map Formal.marks) ++
      (methodOf s body).form.closing

/-- A member's tokens show all of it. -/
def Faithful : MemberTree → Prop
  | fields type _ _ => 0 ≤ type.dimension
  | method s body => (methodOf s body).Faithful

/-- A member declares fields. -/
def isFields : MemberTree → Bool
  | fields .. => true
  | method .. => false

/-- A member with its fields declared one at a time. -/
def separate : MemberTree → List MemberTree
  | fields type first further => (first :: further).map fun w => fields type w []
  | m@(method ..) => [m]

theorem marks_method {s : Signature} {body : Option (List StmtTree)}
    (h : (method s body).Bodied) : (method s body).marks = (methodOf s body).marks := by
  have hopening : (if s.static then [Mark.keyword .static] else []) =
      (methodOf s body).form.opening := by
    cases body with
    | none => simp [methodOf, MethodForm.opening, show s.static = true from h]
    | some body => cases hs : s.static <;> simp [methodOf, MethodForm.opening, hs]
  rw [marks, hopening]
  rfl

section Separate

variable {α : Type} {g : MemberTree → List α}

/-- Fields that are declared one at a time are written out as the fields that they are. -/
theorem separate_fields {h : Field → List α}
    (hgh : ∀ type w, g (fields type w []) = h (fieldOf type w)) (m : MemberTree) :
    (m.separate.filter isFields).flatMap g = m.fieldsOf.flatMap h := by
  cases m with
  | fields type first further =>
    have hall : (separate (fields type first further)).filter isFields =
        (first :: further).map fun w => fields type w [] := by
      rw [separate, List.filter_eq_self]
      simp [isFields]
    rw [hall, fieldsOf, List.flatMap_map, List.flatMap_map]
    exact List.flatMap_congr fun w _ => hgh type w
  | method s body => simp [separate, isFields, fieldsOf]

theorem separate_methods {h : Method Expr → List α}
    (hgh : ∀ s body, (method s body).Bodied → g (method s body) = h (methodOf s body))
    {m : MemberTree} (hm : m.Bodied) :
    (m.separate.filter (!isFields ·)).flatMap g = m.methodsOf.flatMap h := by
  cases m with
  | fields type first further =>
    have hnone : (separate (fields type first further)).filter (!isFields ·) = [] := by
      rw [List.filter_eq_nil_iff]
      simp [separate, isFields]
    rw [hnone, methodsOf]
    rfl
  | method s body => simp [separate, isFields, methodsOf, hgh s body hm]

end Separate

end MemberTree

/-! ## Classes -/

namespace ClassTree

/-- A class, whether or not it keeps the rules. -/
def decl (c : ClassTree) : ClassDecl Expr :=
  { name := c.name.text
    superclass := c.superclass.map (·.text)
    fields := c.members.flatMap MemberTree.fieldsOf
    methods := c.members.flatMap MemberTree.methodsOf
    line := c.name.line }

/-- A class written out as marks, its members in the order of the source. -/
def marks (c : ClassTree) : List Mark :=
  classHeading c.name.text (c.superclass.map (·.text)) ++
    .sign .lbrace :: c.members.flatMap MemberTree.marks ++ [.sign .rbrace]

/-- The tokens of a class show all of it. -/
def Faithful (c : ClassTree) : Prop := ∀ m ∈ c.members, m.Faithful

theorem decl_faithful {c : ClassTree} (h : c.Faithful) : c.decl.Faithful := by
  constructor
  · intro f hf
    obtain ⟨m, hm, hf⟩ := List.mem_flatMap.1 hf
    cases m with
    | fields type first further =>
      obtain ⟨w, -, rfl⟩ := List.mem_map.1 hf
      exact h _ hm
    | method s body => cases hf
  · intro x hx
    obtain ⟨m, hm, hx⟩ := List.mem_flatMap.1 hx
    cases m with
    | fields type first further => cases hx
    | method s body =>
      rw [List.mem_singleton.1 hx]
      exact h _ hm

/-- The class with its fields declared one at a time, before the methods. -/
def arranged (c : ClassTree) : ClassTree :=
  let members := c.members.flatMap MemberTree.separate
  { c with
    members := members.filter MemberTree.isFields ++ members.filter (!MemberTree.isFields ·) }

/-- The members of the arrangement are written out as the fields and methods of the class. -/
theorem arranged_members {α : Type} {g : MemberTree → List α} {h : Field → List α}
    {h' : Method Expr → List α} (hfield : ∀ type w, g (.fields type w []) = h (fieldOf type w))
    (hmethod : ∀ s body, (MemberTree.method s body).Bodied →
      g (.method s body) = h' (methodOf s body))
    {c : ClassTree} (hc : ∀ m ∈ c.members, m.Bodied) :
    c.arranged.members.flatMap g = c.decl.fields.flatMap h ++ c.decl.methods.flatMap h' := by
  have hfields : ((c.members.flatMap MemberTree.separate).filter MemberTree.isFields).flatMap
      g = (c.members.flatMap MemberTree.fieldsOf).flatMap h := by
    rw [List.filter_flatMap, List.flatMap_assoc, List.flatMap_assoc]
    exact List.flatMap_congr fun m _ => MemberTree.separate_fields hfield m
  have hmethods : ((c.members.flatMap MemberTree.separate).filter
      (!MemberTree.isFields ·)).flatMap g =
        (c.members.flatMap MemberTree.methodsOf).flatMap h' := by
    rw [List.filter_flatMap, List.flatMap_assoc, List.flatMap_assoc]
    exact List.flatMap_congr fun m hm => MemberTree.separate_methods hmethod (hc m hm)
  rw [arranged, List.flatMap_append, hfields, hmethods, decl]

private theorem members_ok {ms : List MemberTree} {sofar next : List Field × List (Method Expr)}
    (h : ms.foldlM (fun sofar m => MemberTree.meaning sofar m) sofar = .ok next) :
    next = (sofar.1 ++ ms.flatMap MemberTree.fieldsOf,
      sofar.2 ++ ms.flatMap MemberTree.methodsOf) ∧
    ∀ m ∈ ms, m.Bodied ∧ (∀ f ∈ m.fieldsOf, f.type.isVoid = false) ∧
      ∀ x ∈ m.methodsOf, x.Lawful := by
  induction ms generalizing sofar with
  | nil => cases h; simp
  | cons m ms ih =>
    rw [List.foldlM_cons] at h
    obtain ⟨mid, hm, h⟩ := Except.bind_eq_ok h
    obtain ⟨rfl, lm⟩ := MemberTree.meaning_ok hm
    obtain ⟨rfl, lms⟩ := ih h
    exact ⟨by simp, by simpa using ⟨lm, lms⟩⟩

/-- A class that has a meaning means the class that it is, which is lawful. Its
arrangement has that class's marks. -/
theorem meaning_ok {c : ClassTree} {m : ClassDecl Expr} (h : c.meaning = .ok m) :
    m = c.decl ∧ m.Lawful ∧ c.arranged.marks = m.marks ∧ ∀ x ∈ c.members, x.Bodied := by
  obtain ⟨⟨fields, methods⟩, hfm, h⟩ := Except.bind_eq_ok h
  cases h
  obtain ⟨heq, hms⟩ := members_ok hfm
  simp only [List.nil_append, Prod.mk.injEq] at heq
  obtain ⟨rfl, rfl⟩ := heq
  refine ⟨rfl, ⟨?_, ?_⟩, ?_, fun x hx => (hms x hx).1⟩
  · intro f hf
    obtain ⟨m, hm, hf⟩ := List.mem_flatMap.1 hf
    exact (hms m hm).2.1 f hf
  · intro x hx
    obtain ⟨m, hm, hx⟩ := List.mem_flatMap.1 hx
    exact (hms m hm).2.2 x hx
  · have hmembers := arranged_members (g := MemberTree.marks) (h := Field.marks)
      (fun type w => by simp [MemberTree.marks, Field.marks, fieldOf])
      (fun s body h => MemberTree.marks_method h) fun m hm => (hms m hm).1
    rw [marks, hmembers]
    simp [ClassDecl.marks, arranged, decl]

end ClassTree

/-- A program that has a meaning means the classes that it is made of, which are
lawful. Their arrangements have that program's marks. -/
theorem ProgramTree.meaning_ok {p : ProgramTree} {m : Program Expr}
    (h : ProgramTree.meaning p = .ok m) :
    m = { classes := p.map ClassTree.decl } ∧ m.Lawful ∧
      p.flatMap (·.arranged.marks) = m.marks ∧ ∀ c ∈ p, ∀ x ∈ c.members, x.Bodied := by
  obtain ⟨cs, hcs, h⟩ := Except.bind_eq_ok h
  cases h
  clear h
  induction p generalizing cs with
  | nil => cases hcs; exact ⟨rfl, by simp [Program.Lawful], rfl, by simp⟩
  | cons t p ih =>
    rw [List.mapM_cons] at hcs
    obtain ⟨c, hc, hcs⟩ := Except.bind_eq_ok hcs
    obtain ⟨cs, hrest, hcs⟩ := Except.bind_eq_ok hcs
    cases hcs
    obtain ⟨rfl, lc, mc, bc⟩ := ClassTree.meaning_ok hc
    obtain ⟨hp, lp, mp, bp⟩ := ih cs hrest
    simp only [Program.mk.injEq, and_true] at hp
    subst hp
    exact ⟨rfl, by simpa [Program.Lawful] using ⟨lc, by simpa [Program.Lawful] using lp⟩,
      by rw [List.flatMap_cons, mc, mp]; rfl, by simpa using ⟨bc, bp⟩⟩

/-- The formal parameters of a program read from a text are all its own. -/
theorem Program.parse_standIn {source : String} {p : Program Expr}
    (h : Program.parse source = .ok p) :
    ∀ c ∈ p.classes, ∀ m ∈ c.methods, ∀ f ∈ m.formals, f.standIn = none := by
  unfold Program.parse at h
  split at h
  next tree _ =>
    obtain ⟨rfl, -⟩ := ProgramTree.meaning_ok h
    intro c hc m hm f hf
    obtain ⟨t, -, rfl⟩ := List.mem_map.mp hc
    obtain ⟨member, -, hm⟩ := List.mem_flatMap.mp hm
    cases member with
    | fields type first further => exact absurd hm List.not_mem_nil
    | method s body =>
      obtain rfl := List.mem_singleton.mp hm
      obtain ⟨formal, -, rfl⟩ := List.mem_map.mp hf
      rfl
  next => cases h

end IcFront
