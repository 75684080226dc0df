import IcFront.Proofs.Steps
import IcFront.Syntax.ExprFromDocument
import IcFront.Syntax.ToDocument

/-!
# Syntax trees read back from their documents

Reading the document of a syntax tree gives the tree again (`Expr.ofDocument_toDocument`,
`Program.ofDocument_toDocument`), the keys of its scopes included. So a document that was
written from a tree is never found malformed.

The one condition is that no node stands in for a formal parameter: the document of such
a tree is that of the node.
-/

namespace IcFront

namespace Document

theorem get_eq {d e : Document} {name : String} (h : d.part? name = some e) :
    d.get name = .ok ⟨e, sizeOf_part?_lt h⟩ := by
  unfold get
  split
  next e' h' =>
    obtain rfl := Option.some.inj (h'.symm.trans h)
    rfl
  next h' => exact absurd (h'.symm.trans h) (by simp)

theorem get?_eq_none {d : Document} {name : String} (h : d.part? name = some .null) :
    d.get? name = .ok none := by
  rw [get?, get_eq h]

theorem get?_eq_some {d e : Document} {name : String} (h : d.part? name = some e)
    (hne : e ≠ .null) : d.get? name = .ok (some ⟨e, sizeOf_part?_lt h⟩) := by
  rw [get?, get_eq h]
  cases e <;> first | rfl | exact absurd rfl hne

theorem scopeKey_eq {d : Document} {key : Option Nat} (h : d.part? "scope" = some (ofKey? key)) :
    d.scopeKey = key := by
  rw [scopeKey, h]
  cases key <;> rfl

end Document

open Document

/-! ## Expressions -/

theorem TypeRef.ofDocument_toDocument (t : TypeRef) : TypeRef.ofDocument t.toDocument = .ok t := by
  obtain ⟨base, dimension, line⟩ := t
  cases base with
  | primitive p => cases p <;> rfl
  | user name => rfl

theorem Literal.ofDocument_node (value : Literal) (line : Int) :
    Literal.ofDocument (.node "Literal" [("kind", .literalKind value.kind),
      ("value", value.value), ("line", .int line)]) = .ok value := by
  cases value with
  | bool b => cases b <;> rfl
  | _ => rfl

namespace Expr

theorem toDocument_ne_null (e : Expr) : e.toDocument ≠ .null := by
  cases e <;> simp [toDocument]

mutual

/-- Reading the document of an expression gives the expression. Each case says what
reading the node comes to once its parts are found. -/
theorem ofDocument_toDocument : ∀ e : Expr, ofDocument e.toDocument = .ok e
  | var name line => by
    rw [toDocument, ofDocument]
    rfl
  | field object name line => by
    have ho := ofDocument_toDocument object
    rw [toDocument, ofDocument]
    show (Document.get? _ "location" >>= _) = _
    rw [get?_eq_some rfl object.toDocument_ne_null]
    show (ofDocument object.toDocument >>= fun o => .ok (field o name line)) = _
    rw [ho]
    rfl
  | element array index line => by
    have ha := ofDocument_toDocument array
    have hi := ofDocument_toDocument index
    rw [toDocument, ofDocument]
    show (ofDocument array.toDocument >>= fun a => ofDocument index.toDocument >>= fun i =>
      .ok (element a i line)) = _
    rw [ha, hi]
    rfl
  | staticCall className name arguments line => by
    have ha := ofDocuments_toDocuments arguments
    rw [toDocument, ofDocument]
    show (ofDocuments (toDocuments arguments) >>= fun as =>
      .ok (staticCall className name as line)) = _
    rw [ha]
    rfl
  | virtualCall receiver name arguments line => by
    have hr := ofDocument_toDocument receiver
    have ha := ofDocuments_toDocuments arguments
    rw [toDocument, ofDocument]
    show (Document.get? _ "location" >>= _) = _
    rw [get?_eq_some rfl receiver.toDocument_ne_null]
    show (ofDocument receiver.toDocument >>= fun r => ofDocuments (toDocuments arguments) >>=
      fun as => .ok (virtualCall r name as line)) = _
    rw [hr, ha]
    rfl
  | localCall name arguments line => by
    have ha := ofDocuments_toDocuments arguments
    rw [toDocument, ofDocument]
    show (ofDocuments (toDocuments arguments) >>= fun as => .ok (localCall name as line)) = _
    rw [ha]
    rfl
  | this line => by
    rw [toDocument, ofDocument]
    rfl
  | newObject className line => by
    rw [toDocument, ofDocument]
    rfl
  | newArray type size line => by
    have hs := ofDocument_toDocument size
    rw [toDocument, ofDocument]
    show (TypeRef.ofDocument type.toDocument >>= fun t => ofDocument size.toDocument >>= fun s =>
      .ok (newArray t s line)) = _
    rw [TypeRef.ofDocument_toDocument, hs]
    rfl
  | length array line => by
    have ha := ofDocument_toDocument array
    rw [toDocument, ofDocument]
    show (ofDocument array.toDocument >>= fun a => .ok (length a line)) = _
    rw [ha]
    rfl
  | binary op left right line => by
    have hl := ofDocument_toDocument left
    have hr := ofDocument_toDocument right
    cases op <;>
    · rw [toDocument, ofDocument]
      show (ofDocument left.toDocument >>= fun l => ofDocument right.toDocument >>= fun r =>
        .ok (binary _ l r line)) = _
      rw [hl, hr]
      rfl
  | unary op operand line => by
    have ho := ofDocument_toDocument operand
    cases op <;>
    · rw [toDocument, ofDocument]
      show (ofDocument operand.toDocument >>= fun o => .ok (unary _ o line)) = _
      rw [ho]
      rfl
  | literal value line => by
    rw [toDocument, ofDocument]
    show (Literal.ofDocument _ >>= fun v => .ok (literal v line)) = _
    rw [Literal.ofDocument_node]
    rfl
  | paren inner line => by
    have hi := ofDocument_toDocument inner
    rw [toDocument, ofDocument]
    show (ofDocument inner.toDocument >>= fun i => .ok (paren i line)) = _
    rw [hi]
    rfl

/-- Reading the documents of expressions gives the expressions. -/
theorem ofDocuments_toDocuments : ∀ es : List Expr, ofDocuments (toDocuments es) = .ok es
  | [] => by
    rw [toDocuments, ofDocuments]
  | e :: es => by
    rw [toDocuments, ofDocuments, ofDocument_toDocument e, ofDocuments_toDocuments es]
    rfl

end

end Expr

/-! ## Statements -/

variable {ε : Type} {read : Document → Except Malformed ε} {write : ε → Document}

/-- What is written can be read again, and is never taken for a part that is left out. -/
def ReadsBack (read : Document → Except Malformed ε) (write : ε → Document) : Prop :=
  ∀ e, read (write e) = .ok e ∧ write e ≠ .null

theorem Expr.readsBack : ReadsBack Expr.ofDocument Expr.toDocument := fun e =>
  ⟨e.ofDocument_toDocument, e.toDocument_ne_null⟩

namespace Stmt

theorem toDocument_ne_null (s : Stmt ε) : s.toDocument write ≠ .null := by
  cases s <;> simp [toDocument]

theorem exprPart_eq (hr : ReadsBack read write) {d : Document} {name : String} {e : ε}
    (h : d.part? name = some (write e)) : exprPart read d name = .ok e := by
  rw [exprPart, get_eq h]
  exact (hr e).1

theorem exprPart?_eq (hr : ReadsBack read write) {d : Document} {name : String} {e : Option ε}
    (h : d.part? name = some (ofExpr? write e)) : exprPart? read d name = .ok e := by
  cases e with
  | none =>
    rw [exprPart?, get?_eq_none h]
    rfl
  | some e =>
    rw [exprPart?, get?_eq_some h (hr e).2]
    show (read (write e) >>= fun e => .ok (some e)) = _
    rw [(hr e).1]
    rfl

mutual

/-- Reading the document of a statement gives the statement. -/
theorem ofDocument_toDocument (hr : ReadsBack read write) :
    ∀ s : Stmt ε, ofDocument read (s.toDocument write) = .ok s
  | assign target value line => by
    rw [toDocument, ofDocument]
    show (exprPart read _ "variable" >>= fun t => exprPart read _ "assignment" >>= fun v =>
      .ok (assign t v line)) = _
    rw [exprPart_eq hr rfl, exprPart_eq hr rfl]
    rfl
  | call e line => by
    rw [toDocument, ofDocument]
    show (exprPart read _ "call" >>= fun e => .ok (call e line)) = _
    rw [exprPart_eq hr rfl]
    rfl
  | return_ value line => by
    rw [toDocument, ofDocument]
    show (exprPart? read _ "value" >>= fun v => .ok (return_ v line)) = _
    rw [exprPart?_eq hr rfl]
    rfl
  | ifThen condition body line => by
    have hb := ofDocument_toDocument hr body
    rw [toDocument, ofDocument]
    show (ofDocument read (body.toDocument write) >>= fun b => exprPart read _ "condition" >>=
      fun c => .ok (ifThen c b line)) = _
    rw [hb, exprPart_eq hr rfl]
    rfl
  | ifElse condition body otherwise line => by
    have hb := ofDocument_toDocument hr body
    have ho := ofDocument_toDocument hr otherwise
    rw [toDocument, ofDocument]
    show (ofDocument read (body.toDocument write) >>= fun _ =>
      Document.get? _ "else_operation" >>= _) = _
    rw [hb, get?_eq_some rfl (toDocument_ne_null otherwise)]
    show (ofDocument read (otherwise.toDocument write) >>= fun o =>
      exprPart read _ "condition" >>= fun c => .ok (ifElse c body o line)) = _
    rw [ho, exprPart_eq hr rfl]
    rfl
  | while_ condition body line => by
    have hb := ofDocument_toDocument hr body
    rw [toDocument, ofDocument]
    show (ofDocument read (body.toDocument write) >>= fun b => exprPart read _ "condition" >>=
      fun c => .ok (while_ c b line)) = _
    rw [hb, exprPart_eq hr rfl]
    rfl
  | break_ line => by
    rw [toDocument, ofDocument]
    rfl
  | continue_ line => by
    rw [toDocument, ofDocument]
    rfl
  | block body line scope => by
    have hb := ofDocuments_toDocuments hr body
    rw [toDocument, ofDocument]
    show (ofDocuments read (toDocuments write body) >>= fun b =>
      .ok (block b line (scopeKey _))) = _
    rw [hb, scopeKey_eq rfl]
    rfl
  | localVar type name initial line => by
    rw [toDocument, ofDocument]
    show (TypeRef.ofDocument type.toDocument >>= fun t => exprPart? read _ "init_value" >>=
      fun i => .ok (localVar t name i line)) = _
    rw [TypeRef.ofDocument_toDocument, exprPart?_eq hr rfl]
    rfl

/-- Reading the documents of statements gives the statements. -/
theorem ofDocuments_toDocuments (hr : ReadsBack read write) :
    ∀ ss : List (Stmt ε), ofDocuments read (toDocuments write ss) = .ok ss
  | [] => by
    rw [toDocuments, ofDocuments]
  | s :: ss => by
    rw [toDocuments, ofDocuments, ofDocument_toDocument hr s, ofDocuments_toDocuments hr ss]
    rfl

end

end Stmt

/-! ## Declarations -/

theorem Field.ofDocument_toDocument (className : String) (f : Field) :
    Field.ofDocument className f.toDocument = .ok f := by
  show (TypeRef.ofDocument f.type.toDocument >>= fun t =>
    (.ok ⟨t, f.name, f.line⟩ : Except Malformed Field)) = _
  rw [TypeRef.ofDocument_toDocument]
  rfl

namespace Formal

theorem toDocument_eq {f : Formal} (h : f.standIn = none) :
    f.toDocument = .node "Formal"
      [("type", f.type.toDocument), ("name", .text f.name), ("line", .int f.line)] := by
  rw [toDocument, h]

theorem ofStandIn_toDocument (declared : List String) {f : Formal} (h : f.standIn = none) :
    ofStandIn declared f.toDocument = .ok f := by
  obtain ⟨type, name, line, standIn⟩ := f
  obtain rfl : standIn = none := h
  rw [toDocument_eq rfl]
  show (TypeRef.ofDocument type.toDocument >>= _) = _
  rw [TypeRef.ofDocument_toDocument]
  show (if type.isUndefined declared then _ else _) = _
  split <;> rfl

/-- Formal parameters pass for what they are. -/
theorem check_toDocument (declared : List String) (method : String) {fs : List Formal}
    (h : ∀ f ∈ fs, f.standIn = none) :
    check declared method (fs.map toDocument) = .ok () := by
  induction fs with
  | nil => rfl
  | cons f fs ih =>
    have hrest := ih fun x hx => h x (List.mem_cons_of_mem _ hx)
    rw [List.map_cons, toDocument_eq (h f List.mem_cons_self)]
    show (TypeRef.ofDocument f.type.toDocument >>= fun t =>
      if t.isUndefined declared then .ok () else check declared method (fs.map toDocument)) = _
    rw [TypeRef.ofDocument_toDocument]
    show (if f.type.isUndefined declared then _ else _) = _
    rw [hrest, ite_self]

end Formal

theorem Method.ofDocument_toDocument (hr : ReadsBack read write) (declared : List String)
    (className : String) {m : Method ε} (h : ∀ f ∈ m.formals, f.standIn = none) :
    Method.ofDocument read declared className (m.toDocument write) = .ok m := by
  obtain ⟨form, type, name, formals, line, scope⟩ := m
  have hcheck := Formal.check_toDocument declared name h
  have hformals : Formal.ofStandIns declared (formals.map Formal.toDocument) = .ok formals := by
    have hall := mapM_eq_ok (h := fun f => f) fun f hf =>
      Formal.ofStandIn_toDocument declared (h f hf)
    rwa [List.map_id'] at hall
  have hbody := Stmt.ofDocuments_toDocuments hr form.body
  have hread : Method.ofDocument read declared className
      (Method.toDocument write ⟨form, type, name, formals, line, scope⟩) =
      (TypeRef.ofDocument type.toDocument >>= fun t =>
        Formal.check declared name (formals.map Formal.toDocument) >>= fun _ =>
        Formal.ofStandIns declared (formals.map Formal.toDocument) >>= fun fs =>
        Stmt.ofDocuments read (Stmt.toDocuments write form.body) >>= fun b =>
          (.ok ⟨form.withBody b, t, name, fs, line, scope⟩ : Except Malformed (Method ε))) := by
    cases form <;> cases scope <;> rfl
  rw [hread, TypeRef.ofDocument_toDocument, hcheck, hformals, hbody]
  cases form <;> rfl

theorem ClassDecl.ofDocument_toDocument (hr : ReadsBack read write) (declared : List String)
    {c : ClassDecl ε} (h : ∀ m ∈ c.methods, ∀ f ∈ m.formals, f.standIn = none) :
    ClassDecl.ofDocument read declared (c.toDocument write) = .ok c := by
  obtain ⟨name, superclass, fields, methods, line, scope⟩ := c
  have hfields : (fields.map Field.toDocument).mapM (Field.ofDocument name) = .ok fields := by
    have hall := mapM_eq_ok (h := fun f => f) fun f (_ : f ∈ fields) =>
      Field.ofDocument_toDocument name f
    rwa [List.map_id'] at hall
  have hmethods : (methods.map (Method.toDocument write)).mapM
      (Method.ofDocument read declared name) = .ok methods := by
    have hall := mapM_eq_ok (h := fun m => m) fun m hm =>
      Method.ofDocument_toDocument hr declared name (h m hm)
    rwa [List.map_id'] at hall
  have hread : ClassDecl.ofDocument read declared
      (ClassDecl.toDocument write ⟨name, superclass, fields, methods, line, scope⟩) =
      ((fields.map Field.toDocument).mapM (Field.ofDocument name) >>= fun fs =>
        (methods.map (Method.toDocument write)).mapM (Method.ofDocument read declared name) >>=
        fun ms =>
          (.ok ⟨name, superclass, fs, ms, line, scope⟩ : Except Malformed (ClassDecl ε))) := by
    cases superclass <;> cases scope <;> rfl
  rw [hread, hfields, hmethods]
  rfl

/-- Reading the document of a program gives the program. -/
theorem Program.ofDocument_toDocument (hr : ReadsBack read write) {p : Program ε}
    (h : ∀ c ∈ p.classes, ∀ m ∈ c.methods, ∀ f ∈ m.formals, f.standIn = none) :
    Program.ofDocument read (p.toDocument write) = .ok p := by
  obtain ⟨classes, line, scope⟩ := p
  have hdeclared : (classes.map (ClassDecl.toDocument write)).mapM classNameOf =
      .ok (classes.map (·.name)) :=
    mapM_eq_ok fun _ _ => rfl
  have hclasses : (classes.map (ClassDecl.toDocument write)).mapM
      (ClassDecl.ofDocument read (classes.map (·.name))) = .ok classes := by
    have hall := mapM_eq_ok (h := fun c => c) fun c hc =>
      ClassDecl.ofDocument_toDocument hr (classes.map (·.name)) (h c hc)
    rwa [List.map_id'] at hall
  have hread : Program.ofDocument read (Program.toDocument write ⟨classes, line, scope⟩) =
      ((classes.map (ClassDecl.toDocument write)).mapM classNameOf >>= fun declared =>
        (classes.map (ClassDecl.toDocument write)).mapM (ClassDecl.ofDocument read declared) >>=
        fun cs => (.ok ⟨cs, line, scope⟩ : Except Malformed (Program ε))) := by
    cases scope <;> rfl
  rw [hread, hdeclared]
  show ((classes.map (ClassDecl.toDocument write)).mapM
    (ClassDecl.ofDocument read (classes.map (·.name))) >>= _) = _
  rw [hclasses]
  rfl

end IcFront
