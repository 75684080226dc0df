import IcFront.Proofs.Grammar.Trees
import IcFront.Proofs.Syntax.Spelling

/-!
# Programs on one line

A program that is written out as its marks stands on one line, the first. `tree` is
the parse tree that such a text should have, and `onOneLine` is the program with that
line everywhere and no scopes. The parse tree of a program that is lawful, and whose
marks can be written, means that program (`Program.meaning_tree`).
-/

namespace IcFront

/-- A type on the first line. -/
def TypeRef.onOneLine (t : TypeRef) : TypeRef := { t with line := 1 }

/-! ## Expressions -/

namespace Expr

mutual

/-- An expression on the first line. -/
def onOneLine : Expr → Expr
  | var name _ => .var name 1
  | field object name _ => .field object.onOneLine name 1
  | element array index _ => .element array.onOneLine index.onOneLine 1
  | staticCall c name arguments _ => .staticCall c name (allOnOneLine arguments) 1
  | virtualCall receiver name arguments _ =>
    .virtualCall receiver.onOneLine name (allOnOneLine arguments) 1
  | localCall name arguments _ => .localCall name (allOnOneLine arguments) 1
  | this _ => .this 1
  | newObject c _ => .newObject c 1
  | newArray type size _ => .newArray type.onOneLine size.onOneLine 1
  | length array _ => .length array.onOneLine 1
  | binary op left right _ => .binary op left.onOneLine right.onOneLine 1
  | unary op operand _ => .unary op operand.onOneLine 1
  | literal value _ => .literal value 1
  | paren inner _ => .paren inner.onOneLine 1

/-- The expressions of a list on the first line. -/
def allOnOneLine : List Expr → List Expr
  | [] => []
  | e :: es => e.onOneLine :: allOnOneLine es

end

mutual

/-- The parse tree of an expression that is written on the first line. -/
def tree : Expr → ExprTree
  | var name _ => .var ⟨name, 1⟩
  | field object name _ => .field object.tree ⟨name, 1⟩
  | element array index _ => .element array.tree index.tree
  | staticCall c name arguments _ => .staticCall ⟨c, 1⟩ ⟨name, 1⟩ (trees arguments)
  | virtualCall receiver name arguments _ =>
    .virtualCall receiver.tree ⟨name, 1⟩ (trees arguments)
  | localCall name arguments _ => .localCall ⟨name, 1⟩ (trees arguments)
  | this _ => .this 1
  | newObject c _ => .newObject 1 ⟨c, 1⟩
  | newArray type size _ => .newArray 1 type.onOneLine size.tree
  | length array _ => .length array.tree
  | binary op left right _ => .binary left.tree op 1 right.tree
  | unary op operand _ => .unary op 1 operand.tree
  | literal (.integer n) _ => .integer ⟨toString n.toNat, 1⟩
  | literal (.string s) _ => .string ⟨quotation s, 1⟩
  | literal (.bool b) _ => .bool b 1
  | literal .null _ => .null 1
  | paren inner _ => .paren inner.tree

/-- The parse trees of expressions that are written on the first line. -/
def trees : List Expr → List ExprTree
  | [] => []
  | e :: es => e.tree :: trees es

end

theorem line_onOneLine (e : Expr) : e.onOneLine.line = 1 := by cases e <;> rfl

theorem isLocation_onOneLine (e : Expr) : e.onOneLine.isLocation = e.isLocation := by
  cases e <;> rfl

theorem isCall_onOneLine (e : Expr) : e.onOneLine.isCall = e.isCall := by cases e <;> rfl

mutual

/-- The parse tree of a lawful expression means that expression. -/
theorem meaning_tree {e : Expr} (hl : e.Everywhere Lawful) (hf : e.Everywhere Faithful)
    (hw : ∀ m ∈ e.marks, m.Writable) : e.tree.meaning = .ok e.onOneLine := by
  cases e with
  | var name l => rfl
  | field object name l =>
    have ho := meaning_tree hl.2 hf.2 fun m hm => hw m (by simp [marks, hm])
    rw [tree, ExprTree.meaning, ho]
    rfl
  | element array index l =>
    have ha := meaning_tree hl.2.1 hf.2.1 fun m hm => hw m (by simp [marks, hm])
    have hi := meaning_tree hl.2.2 hf.2.2 fun m hm => hw m (by simp [marks, hm])
    rw [tree, ExprTree.meaning, ha, hi, onOneLine, ← array.line_onOneLine]
    rfl
  | staticCall c name arguments l =>
    have has := meanings_trees hl.2 hf.2 fun ms hms m hm =>
      hw m (by simp [marks, mem_argumentMarks hms hm])
    rw [tree, ExprTree.meaning, has]
    rfl
  | virtualCall receiver name arguments l =>
    have hr := meaning_tree hl.2.1 hf.2.1 fun m hm => hw m (by simp [marks, hm])
    have has := meanings_trees hl.2.2 hf.2.2 fun ms hms m hm =>
      hw m (by simp [marks, mem_argumentMarks hms hm])
    rw [tree, ExprTree.meaning, hr, has]
    rfl
  | localCall name arguments l =>
    have has := meanings_trees hl.2 hf.2 fun ms hms m hm =>
      hw m (by simp [marks, mem_argumentMarks hms hm])
    rw [tree, ExprTree.meaning, has]
    rfl
  | this l => rfl
  | newObject c l => rfl
  | newArray type size l =>
    have hs := meaning_tree hl.2 hf.2 fun m hm => hw m (by simp [marks, hm])
    have hvoid : type.onOneLine.isVoid = false := hl.1
    rw [tree, ExprTree.meaning, hs, hvoid]
    rfl
  | length array l =>
    have ha := meaning_tree hl.2 hf.2 fun m hm => hw m (by simp [marks, hm])
    rw [tree, ExprTree.meaning, ha, onOneLine, ← array.line_onOneLine]
    rfl
  | binary op left right l =>
    have hleft := meaning_tree hl.2.1 hf.2.1 fun m hm => hw m (by simp [marks, hm])
    have hright := meaning_tree hl.2.2 hf.2.2 fun m hm => hw m (by simp [marks, hm])
    rw [tree, ExprTree.meaning, hleft, hright]
    rfl
  | unary op operand l =>
    have ho := meaning_tree hl.2 hf.2 fun m hm => hw m (by simp [marks, hm])
    rw [tree, ExprTree.meaning, ho]
    rfl
  | literal value l =>
    cases value with
    | integer n =>
      have hn : (n.toNat : Int) = n := Int.toNat_of_nonneg hf
      have hdigits : (toString n.toNat).length ≤ maxDigits :=
        hw (.integer n.toNat) (by simp [marks, Literal.mark])
      rw [tree, ExprTree.meaning, if_neg (Nat.not_lt.2 hdigits), digitsValue_toString, hn]
      rfl
    | string s => rw [tree, ExprTree.meaning, quotedValue_quotation]; rfl
    | bool b => rfl
    | null => rfl
  | paren inner l =>
    have hi := meaning_tree hl.2 hf.2 fun m hm => hw m (by simp [marks, hm])
    rw [tree, ExprTree.meaning, hi, onOneLine, ← inner.line_onOneLine]
    rfl

theorem meanings_trees {es : List Expr} (hl : AllEverywhere Lawful es)
    (hf : AllEverywhere Faithful es) (hw : ∀ ms ∈ marksOf es, ∀ m ∈ ms, m.Writable) :
    ExprTree.meanings (trees es) = .ok (allOnOneLine es) := by
  cases es with
  | nil => rfl
  | cons e es =>
    have he := meaning_tree hl.1 hf.1 (hw e.marks List.mem_cons_self)
    have hes := meanings_trees hl.2 hf.2 fun ms hms => hw ms (List.mem_cons_of_mem _ hms)
    rw [trees, ExprTree.meanings, he, hes]
    rfl

end

theorem meaning?_tree {e : Option Expr} (hl : ∀ x ∈ e, x.Everywhere Lawful)
    (hf : ∀ x ∈ e, x.Everywhere Faithful) (hw : ∀ m ∈ marks? e, m.Writable) :
    ExprTree.meaning? (e.map tree) = .ok (e.map onOneLine) := by
  cases e with
  | none => rfl
  | some e =>
    rw [Option.map_some, ExprTree.meaning?, meaning_tree (hl e rfl) (hf e rfl) hw]
    rfl

end Expr

/-! ## Statements -/

theorem refuseVoid_onOneLine {what : Declared} {type : TypeRef} {name : Word}
    (h : type.isVoid = false) : refuseVoid what type.onOneLine name = .ok () := by
  have hvoid : type.onOneLine.isVoid = false := h
  rw [refuseVoid, hvoid]
  rfl

namespace Stmt

mutual

/-- A statement on the first line. -/
def onOneLine : Stmt Expr → Stmt Expr
  | assign target value _ => .assign target.onOneLine value.onOneLine 1
  | call e _ => .call e.onOneLine 1
  | return_ value _ => .return_ (value.map Expr.onOneLine) 1
  | ifThen condition body _ => .ifThen condition.onOneLine body.onOneLine 1
  | ifElse condition body otherwise _ =>
    .ifElse condition.onOneLine body.onOneLine otherwise.onOneLine 1
  | while_ condition body _ => .while_ condition.onOneLine body.onOneLine 1
  | break_ _ => .break_ 1
  | continue_ _ => .continue_ 1
  | block body _ _ => .block (allOnOneLine body) 1 none
  | localVar type name initial _ =>
    .localVar type.onOneLine name (initial.map Expr.onOneLine) 1

/-- The statements of a list on the first line. -/
def allOnOneLine : List (Stmt Expr) → List (Stmt Expr)
  | [] => []
  | s :: ss => s.onOneLine :: allOnOneLine ss

end

mutual

/-- The parse tree of a statement that is written on the first line. -/
def tree : Stmt Expr → StmtTree
  | assign target value _ => .assign target.tree value.tree
  | call e _ => .expression e.tree
  | return_ value _ => .return_ 1 (value.map Expr.tree)
  | ifThen condition body _ => .ifThen 1 condition.tree body.tree
  | ifElse condition body otherwise _ => .ifElse 1 condition.tree body.tree otherwise.tree
  | while_ condition body _ => .while_ 1 condition.tree body.tree
  | break_ _ => .break_ 1
  | continue_ _ => .continue_ 1
  | block body _ _ => .block 1 (trees body)
  | localVar type name initial _ => .localVar type.onOneLine ⟨name, 1⟩ (initial.map Expr.tree)

/-- The parse trees of statements that are written on the first line. -/
def trees : List (Stmt Expr) → List StmtTree
  | [] => []
  | s :: ss => s.tree :: trees ss

end

mutual

/-- The parse tree of a lawful statement means that statement. -/
theorem meaning_tree {s : Stmt Expr} (hl : s.Everywhere Lawful Expr.Lawful)
    (hf : s.Everywhere Faithful Expr.Faithful) (hw : ∀ m ∈ s.marks, m.Writable) :
    s.tree.meaning = .ok s.onOneLine := by
  cases s with
  | assign target value l =>
    have ht := Expr.meaning_tree hl.2.1 hf.2.1 fun m hm => hw m (by simp [marks, hm])
    have hv := Expr.meaning_tree hl.2.2 hf.2.2 fun m hm => hw m (by simp [marks, hm])
    have hloc : target.onOneLine.isLocation = true := by
      rw [Expr.isLocation_onOneLine]; exact hl.1
    rw [tree, StmtTree.meaning, ht, hv, onOneLine, ← target.line_onOneLine]
    exact if_pos hloc
  | call e l =>
    have he := Expr.meaning_tree hl.2 hf.2 fun m hm => hw m (by simp [marks, hm])
    have hcall : e.onOneLine.isCall = true := by
      rw [Expr.isCall_onOneLine]; exact hl.1
    rw [tree, StmtTree.meaning, he, onOneLine, ← e.line_onOneLine]
    exact if_pos hcall
  | return_ value l =>
    have hv := Expr.meaning?_tree hl.2 hf.2 fun m hm => hw m (by simp [marks, hm])
    rw [tree, StmtTree.meaning, hv]
    rfl
  | ifThen condition body l =>
    have hc := Expr.meaning_tree hl.2.1 hf.2.1 fun m hm => hw m (by simp [marks, hm])
    have hb := meaning_tree hl.2.2 hf.2.2 fun m hm => hw m (by simp [marks, hm])
    rw [tree, StmtTree.meaning, hc, hb]
    rfl
  | ifElse condition body otherwise l =>
    have hc := Expr.meaning_tree hl.2.1 hf.2.1 fun m hm => hw m (by simp [marks, hm])
    have hb := meaning_tree hl.2.2.1 hf.2.2.1 fun m hm => hw m (by simp [marks, hm])
    have ho := meaning_tree hl.2.2.2 hf.2.2.2 fun m hm => hw m (by simp [marks, hm])
    rw [tree, StmtTree.meaning, hc, hb, ho]
    rfl
  | while_ condition body l =>
    have hc := Expr.meaning_tree hl.2.1 hf.2.1 fun m hm => hw m (by simp [marks, hm])
    have hb := meaning_tree hl.2.2 hf.2.2 fun m hm => hw m (by simp [marks, hm])
    rw [tree, StmtTree.meaning, hc, hb]
    rfl
  | break_ l => rfl
  | continue_ l => rfl
  | block body l scope =>
    have hb := meanings_trees hl.2 hf.2 fun m hm => hw m (by simp [marks, hm])
    rw [tree, StmtTree.meaning, hb]
    rfl
  | localVar type name initial l =>
    have hi := Expr.meaning?_tree hl.2 hf.2 fun m hm => hw m (by
      cases initial with
      | none => cases hm
      | some e => simp [marks, show m ∈ e.marks from hm])
    rw [tree, StmtTree.meaning, hi]
    show refuseVoid .localVariable type.onOneLine ⟨name, 1⟩ >>= _ = _
    rw [refuseVoid_onOneLine hl.1]
    rfl

theorem meanings_trees {ss : List (Stmt Expr)} (hl : AllEverywhere Lawful Expr.Lawful ss)
    (hf : AllEverywhere Faithful Expr.Faithful ss) (hw : ∀ m ∈ marksOf ss, m.Writable) :
    StmtTree.meanings (trees ss) = .ok (allOnOneLine ss) := by
  cases ss with
  | nil => rfl
  | cons s ss =>
    have hs := meaning_tree hl.1 hf.1 fun m hm => hw m (by simp [marksOf, hm])
    have hss := meanings_trees hl.2 hf.2 fun m hm => hw m (by simp [marksOf, hm])
    rw [trees, StmtTree.meanings, hs, hss]
    rfl

end

end Stmt

/-! ## Declarations -/

/-- A field on the first line. -/
def Field.onOneLine (f : Field) : Field := { f with type := f.type.onOneLine, line := 1 }

/-- The parse tree of a field that is written on the first line. -/
def Field.tree (f : Field) : MemberTree := .fields f.type.onOneLine ⟨f.name, 1⟩ []

/-- A formal parameter on the first line. -/
def Formal.onOneLine (f : Formal) : Formal := { f with type := f.type.onOneLine, line := 1 }

/-- The parse tree of a formal parameter that is written on the first line. -/
def Formal.tree (f : Formal) : FormalTree := ⟨f.type.onOneLine, ⟨f.name, 1⟩⟩

namespace MethodForm

/-- The body of a method on the first line. -/
def onOneLine : MethodForm Expr → MethodForm Expr
  | virtual body => virtual (Stmt.allOnOneLine body)
  | static body => static (Stmt.allOnOneLine body)
  | library => library
  | unspecified body => unspecified (Stmt.allOnOneLine body)

/-- A method is written with the word `static`. -/
def isStatic : MethodForm Expr → Bool
  | static _ | library => true
  | virtual _ | unspecified _ => false

/-- The parse trees of a body that is written on the first line. -/
def trees : MethodForm Expr → Option (List StmtTree)
  | library => none
  | virtual body | static body | unspecified body => some (Stmt.trees body)

end MethodForm

namespace Method

/-- A method on the first line. -/
def onOneLine (m : Method Expr) : Method Expr :=
  { m with
    form := m.form.onOneLine
    type := m.type.onOneLine
    formals := m.formals.map Formal.onOneLine
    line := 1
    scope := none }

/-- The signature of a method that is written on the first line. -/
def signature (m : Method Expr) : Signature :=
  ⟨m.form.isStatic, m.type.onOneLine, ⟨m.name, 1⟩, m.formals.map Formal.tree⟩

/-- The parse tree of a method that is written on the first line. -/
def tree (m : Method Expr) : MemberTree := .method m.signature m.form.trees

end Method

namespace ClassDecl

/-- A class on the first line. -/
def onOneLine (c : ClassDecl Expr) : ClassDecl Expr :=
  { c with
    fields := c.fields.map Field.onOneLine
    methods := c.methods.map Method.onOneLine
    line := 1
    scope := none }

/-- The parse tree of a class that is written on the first line. -/
def tree (c : ClassDecl Expr) : ClassTree :=
  ⟨⟨c.name, 1⟩, c.superclass.map (⟨·, 1⟩), c.fields.map Field.tree ++ c.methods.map Method.tree⟩

end ClassDecl

/-- A program on the first line. The program itself has no line. -/
def Program.onOneLine (p : Program Expr) : Program Expr :=
  { classes := p.classes.map ClassDecl.onOneLine }

/-- The parse tree of a program that is written on the first line. -/
def Program.tree (p : Program Expr) : ProgramTree := p.classes.map ClassDecl.tree

theorem Formal.meaning_tree {f : Formal} (hvoid : f.type.isVoid = false)
    (hs : f.standIn = none) : f.tree.meaning = .ok f.onOneLine := by
  obtain ⟨type, name, line, standIn⟩ := f
  obtain rfl : standIn = none := hs
  show refuseVoid .parameter type.onOneLine ⟨name, 1⟩ >>= _ = _
  rw [refuseVoid_onOneLine hvoid]
  rfl

theorem Field.meaning_tree {f : Field} (hvoid : f.type.isVoid = false) :
    fieldMeaning f.type.onOneLine ⟨f.name, 1⟩ = .ok f.onOneLine := by
  rw [fieldMeaning, refuseVoid_onOneLine hvoid]
  rfl

theorem Method.meaning_tree {m : Method Expr} (hl : m.Lawful) (hf : m.Faithful)
    (hw : ∀ x ∈ m.marks, x.Writable) :
    methodMeaning m.signature m.form.trees = .ok m.onOneLine := by
  have hformals : (m.formals.map Formal.tree).mapM FormalTree.meaning =
      .ok (m.formals.map Formal.onOneLine) :=
    mapM_eq_ok fun f h => Formal.meaning_tree (hl.formals f h) (hf.formals f h).2
  have hbody (body : List (Stmt Expr)) (hb : m.form.body = body)
      (hc : m.form.closing = bodyMarks body) :
      StmtTree.meanings (Stmt.trees body) = .ok (Stmt.allOnOneLine body) := by
    subst hb
    refine Stmt.meanings_trees hl.body hf.body fun x hx => hw x (List.mem_append_right _ ?_)
    rw [hc]
    simp [bodyMarks, hx]
  rw [methodMeaning, signature, hformals]
  cases hform : m.form with
  | virtual body =>
    have hbody := hbody body (by rw [hform]; rfl) (by rw [hform]; rfl)
    show StmtTree.meanings (Stmt.trees body) >>= _ = _
    rw [hbody, onOneLine, hform]
    rfl
  | static body =>
    have hbody := hbody body (by rw [hform]; rfl) (by rw [hform]; rfl)
    show StmtTree.meanings (Stmt.trees body) >>= _ = _
    rw [hbody, onOneLine, hform]
    rfl
  | library => rw [onOneLine, hform]; rfl
  | unspecified body => exact absurd hform (hf.specified body)

theorem Field.member_tree {f : Field} (hvoid : f.type.isVoid = false)
    (sofar : List Field × List (Method Expr)) :
    f.tree.meaning sofar = .ok (sofar.1 ++ [f.onOneLine], sofar.2) := by
  rw [tree, MemberTree.meaning, List.mapM_cons, Field.meaning_tree hvoid]
  rfl

theorem Method.member_tree {m : Method Expr} (hl : m.Lawful) (hf : m.Faithful)
    (hw : ∀ x ∈ m.marks, x.Writable) (sofar : List Field × List (Method Expr)) :
    m.tree.meaning sofar = .ok (sofar.1, sofar.2 ++ [m.onOneLine]) := by
  rw [tree, MemberTree.meaning, Method.meaning_tree hl hf hw]
  rfl

namespace ClassDecl

theorem meaning_fields {fs : List Field} (h : ∀ f ∈ fs, f.type.isVoid = false)
    (sofar : List Field × List (Method Expr)) :
    (fs.map Field.tree).foldlM MemberTree.meaning sofar =
      .ok (sofar.1 ++ fs.map Field.onOneLine, sofar.2) := by
  induction fs generalizing sofar with
  | nil => simp [pure, Except.pure]
  | cons f fs ih =>
    rw [List.map_cons, List.foldlM_cons, Field.member_tree (h f List.mem_cons_self)]
    refine (ih (fun g hg => h g (List.mem_cons_of_mem _ hg)) _).trans ?_
    simp

theorem meaning_methods (ms : List (Method Expr))
    (h : ∀ m ∈ ms, m.Lawful ∧ m.Faithful ∧ ∀ x ∈ m.marks, x.Writable)
    (sofar : List Field × List (Method Expr)) :
    (ms.map Method.tree).foldlM MemberTree.meaning sofar =
      .ok (sofar.1, sofar.2 ++ ms.map Method.onOneLine) := by
  induction ms generalizing sofar with
  | nil => simp [pure, Except.pure]
  | cons m ms ih =>
    obtain ⟨hl, hf, hw⟩ := h m List.mem_cons_self
    rw [List.map_cons, List.foldlM_cons, Method.member_tree hl hf hw]
    refine (ih (fun x hx => h x (List.mem_cons_of_mem _ hx)) _).trans ?_
    simp

theorem meaning_tree {c : ClassDecl Expr} (hl : c.Lawful) (hf : c.Faithful)
    (hw : ∀ x ∈ c.marks, x.Writable) : c.tree.meaning = .ok c.onOneLine := by
  have hfields := meaning_fields hl.fields ([], [])
  have hmethods := meaning_methods c.methods (fun m hm =>
    ⟨hl.methods m hm, hf.methods m hm, fun x hx => hw x (by
      simp only [marks, List.mem_append, List.mem_flatMap]
      exact .inl (.inr ⟨m, hm, hx⟩))⟩) ([] ++ c.fields.map Field.onOneLine, [])
  rw [ClassTree.meaning, tree, List.foldlM_append, hfields]
  show List.foldlM _ _ (c.methods.map Method.tree) >>= _ = _
  rw [hmethods]
  simp [onOneLine, Function.comp_def]

end ClassDecl

/-- The parse tree of a lawful program whose marks can be written means that program. -/
theorem Program.meaning_tree {p : Program Expr} (hl : p.Lawful) (hf : p.Faithful)
    (hw : ∀ x ∈ p.marks, x.Writable) : ProgramTree.meaning p.tree = .ok p.onOneLine := by
  have hclasses : (p.classes.map ClassDecl.tree).mapM ClassTree.meaning =
      .ok (p.classes.map ClassDecl.onOneLine) :=
    mapM_eq_ok fun c hc => ClassDecl.meaning_tree (hl c hc) (hf c hc) fun x hx =>
      hw x (List.mem_flatMap.2 ⟨c, hc, hx⟩)
  rw [ProgramTree.meaning, tree, hclasses]
  rfl

end IcFront
