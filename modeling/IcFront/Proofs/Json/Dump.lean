import IcFront.Proofs.Compilation
import IcFront.Proofs.Json.Documents

/-!
# Syntax trees read back from what is printed

The document of a program is told by what its text says (`Program.recoverable`): the only
kinds of literal in it are those of literals, and no node of another kind stands in for a
formal parameter. The latter holds of what a text is parsed to, and of a library in front of
it. So a program is what reading its text gives (`Program.ofJson?_toJson`, `ofJson?_dump`), and
no other program has that text (`dump_read_back`).
-/

namespace IcFront

/-! ## Documents of programs -/

open Document

@[simp] theorem TypeRef.recoverable (t : TypeRef) : t.toDocument.Recoverable := by
  obtain ⟨base, dimension, line⟩ := t
  cases base <;> simp [toDocument]

@[simp] theorem Literal.recoverable (value : Literal) : value.value.Recoverable := by
  cases value <;> simp [Literal.value]

@[simp] theorem Document.recoverable_ofText? (s : Option String) : (ofText? s).Recoverable := by
  cases s <;> simp [ofText?]

@[simp] theorem Document.recoverable_ofKey? (key : Option Nat) : (ofKey? key).Recoverable := by
  cases key <;> simp [ofKey?]

theorem Document.allRecoverable_map {α : Type} {f : α → Document} {xs : List α}
    (h : ∀ x ∈ xs, (f x).Recoverable) : AllRecoverable (xs.map f) := by
  induction xs with
  | nil => trivial
  | cons x xs ih =>
    rw [List.forall_mem_cons] at h
    exact ⟨h.1, ih h.2⟩

namespace Expr

mutual

theorem recoverable : ∀ e : Expr, e.toDocument.Recoverable
  | var .. | this _ | newObject .. | literal .. => by simp [toDocument]
  | field object _ _ => by simp [toDocument, recoverable object]
  | element array index _ => by simp [toDocument, recoverable array, recoverable index]
  | staticCall _ _ arguments _ | localCall _ arguments _ => by
    simp [toDocument, recoverable_all arguments]
  | virtualCall receiver _ arguments _ => by
    simp [toDocument, recoverable receiver, recoverable_all arguments]
  | newArray _ size _ => by simp [toDocument, recoverable size]
  | length array _ => by simp [toDocument, recoverable array]
  | binary _ left right _ => by simp [toDocument, recoverable left, recoverable right]
  | unary _ operand _ => by simp [toDocument, recoverable operand]
  | paren inner _ => by simp [toDocument, recoverable inner]

theorem recoverable_all : ∀ es : List Expr, AllRecoverable (toDocuments es)
  | [] => trivial
  | e :: es => ⟨recoverable e, recoverable_all es⟩

end

end Expr

namespace Stmt

@[simp] theorem recoverable_ofExpr? (e : Option Expr) :
    (ofExpr? Expr.toDocument e).Recoverable := by
  cases e <;> simp [ofExpr?, Expr.recoverable]

mutual

theorem recoverable : ∀ s : Stmt Expr, (s.toDocument Expr.toDocument).Recoverable
  | assign .. | call .. | return_ .. | break_ _ | continue_ _ | localVar .. => by
    simp [toDocument, Expr.recoverable]
  | ifThen _ body _ | while_ _ body _ => by
    simp [toDocument, Expr.recoverable, recoverable body]
  | ifElse _ body otherwise _ => by
    simp [toDocument, Expr.recoverable, recoverable body, recoverable otherwise]
  | block body _ _ => by simp [toDocument, recoverable_all body]

theorem recoverable_all :
    ∀ ss : List (Stmt Expr), AllRecoverable (toDocuments Expr.toDocument ss)
  | [] => trivial
  | s :: ss => ⟨recoverable s, recoverable_all ss⟩

end

end Stmt

theorem Field.recoverable (f : Field) : f.toDocument.Recoverable := by
  simp [toDocument]

theorem Formal.recoverable {f : Formal} (h : f.standIn = none) : f.toDocument.Recoverable := by
  simp [toDocument_eq h]

theorem Method.recoverable {m : Method Expr} (h : ∀ f ∈ m.formals, f.standIn = none) :
    (m.toDocument Expr.toDocument).Recoverable := by
  have hformals := allRecoverable_map fun f hf => Formal.recoverable (h f hf)
  obtain ⟨form, type, name, formals, line, scope⟩ := m
  cases form <;> simp [toDocument, MethodForm.kind, hformals, Stmt.recoverable_all]

theorem ClassDecl.recoverable {c : ClassDecl Expr}
    (h : ∀ m ∈ c.methods, ∀ f ∈ m.formals, f.standIn = none) :
    (c.toDocument Expr.toDocument).Recoverable := by
  have hfields := allRecoverable_map fun f (_ : f ∈ c.fields) => f.recoverable
  have hmethods := allRecoverable_map fun m hm => Method.recoverable (h m hm)
  simp [toDocument, hfields, hmethods]

/-- The document of a program is told by what its text says. -/
theorem Program.recoverable {p : Program Expr}
    (h : ∀ c ∈ p.classes, ∀ m ∈ c.methods, ∀ f ∈ m.formals, f.standIn = none) :
    (p.toDocument Expr.toDocument).Recoverable := by
  have hclasses := allRecoverable_map fun c hc => ClassDecl.recoverable (h c hc)
  simp [toDocument, hclasses]

/-! ## What is printed -/

/-- The syntax tree that a JSON text says. -/
def Program.ofJson? (text : String) : Option (Program Expr) :=
  ((Json.read text).bind Json.Value.document?).bind fun d =>
    (Program.ofDocument Expr.ofDocument d).toOption

/-- A program is read back from its text. -/
theorem Program.ofJson?_toJson {p : Program Expr}
    (h : ∀ c ∈ p.classes, ∀ m ∈ c.methods, ∀ f ∈ m.formals, f.standIn = none) :
    ofJson? ((p.toDocument Expr.toDocument).toJson ++ "\n") = some p := by
  rw [ofJson?, read_toJson (recoverable h), Option.bind_some, document?_json _ (recoverable h),
    Option.bind_some, ofDocument_toDocument Expr.readsBack h]
  rfl

theorem Compilation.dump_tree (c : Compilation) :
    c.dump true false = .ok ((c.program.toDocument Expr.toDocument).toJson ++ "\n") := rfl

/-- The formal parameters of a compiled program are all its own. -/
theorem compile_standIn {source name : String} {choice : LibraryChoice} {c : Compilation}
    (h : compile source name choice = .ok c) :
    ∀ d ∈ c.program.classes, ∀ m ∈ d.methods, ∀ f ∈ m.formals, f.standIn = none := by
  unfold compile at h
  split at h
  next => cases h
  next p hp =>
    split at h
    next => cases h
    next library hl =>
      cases h
      exact withLibrary_standIn hp hl

/-- What is printed of a compiled program is read as its tree. -/
theorem ofJson?_dump {source name text : String} {choice : LibraryChoice} {c : Compilation}
    (h : compile source name choice = .ok c) (hdump : c.dump true false = .ok text) :
    Program.ofJson? text = some c.program := by
  obtain rfl := Except.ok.inj (c.dump_tree.symm.trans hdump)
  exact Program.ofJson?_toJson (compile_standIn h)

/-- The syntax tree of a compiled program is printed as a JSON text, in which the members of an
object have different names. The text says the document of the tree, and the tree is read back
from it. So no other tree is printed as the same text. -/
theorem dump_read_back {source : String} {p : Program Expr} {choice : LibraryChoice}
    {library : Option (ClassDecl Expr)} (hp : Program.parse source = .ok p)
    (hl : choice.load = .ok library) (name : String) :
    ∃ c text value, compile source name choice = .ok c ∧ c.program = p.withLibrary library ∧
      c.dump true false = .ok text ∧ Json.read text = some value ∧ value.Unambiguous ∧
      value.document? = some (c.program.toDocument Expr.toDocument) ∧
      Program.ofJson? text = some c.program ∧
      ∀ (source' name' : String) (choice' : LibraryChoice) (c' : Compilation),
        compile source' name' choice' = .ok c' → c'.dump true false = .ok text →
          c'.program = c.program := by
  obtain ⟨log, hcompile⟩ := compile_eq hp hl name
  have hrecoverable := Program.recoverable (compile_standIn hcompile)
  have hread := ofJson?_dump hcompile (Compilation.dump_tree _)
  refine ⟨_, _, _, hcompile, rfl, Compilation.dump_tree _, read_toJson hrecoverable,
    unambiguous_json _ hrecoverable, document?_json _ hrecoverable, hread, ?_⟩
  intro source' name' choice' c' hc' hdump
  exact Option.some.inj ((ofJson?_dump hc' hdump).symm.trans hread)

/-- A text that is the name of a kind of literal, one with quotes, a tab and a character that
takes two escapes, a number beyond all machine words, and a library in front. -/
theorem dump_read_back_texts :
    let smile := String.singleton (Char.ofNat 0x1f600)
    let source := "class A extends Library \x7b string[] x; string m(int i) \x7b " ++
      "if (i < 123456789012345678901234567890) return \"LiteralKind.NULL\"; else \x7b \x7d " ++
      "return \"\\\"" ++ smile ++ "\\t\" + Library.f(null, -i, true); \x7d \x7d"
    let text := "class Library \x7b static string f(A a, int i, boolean b); \x7d"
    let choice := LibraryChoice.file ⟨"lib.sig", some (text.toList.map (·.toNat.toUInt8))⟩
    ∃ p library c printed value, Program.parse source = .ok p ∧
      choice.load = .ok (some library) ∧ compile source "a.ic" choice = .ok c ∧
      c.program = p.withLibrary (some library) ∧ c.dump true false = .ok printed ∧
      Json.read printed = some value ∧ value.Unambiguous ∧
      value.document? = some (c.program.toDocument Expr.toDocument) ∧
      Program.ofJson? printed = some c.program := by
  intro smile source text choice
  have hok : (Program.parse source).isOk = true := by decide +kernel
  have hlibrary : choice.load.toOption.any Option.isSome = true := by decide +kernel
  cases hp : Program.parse source with
  | error e =>
    rw [hp] at hok
    cases hok
  | ok p =>
    cases hl : choice.load with
    | error e =>
      rw [hl] at hlibrary
      cases hlibrary
    | ok found =>
      rw [hl] at hlibrary
      cases found with
      | none => cases hlibrary
      | some library =>
        obtain ⟨c, printed, value, hc, hprogram, hdump, hvalue, hnames, hdocument, hread, -⟩ :=
          dump_read_back hp hl "a.ic"
        exact ⟨p, library, c, printed, value, rfl, rfl, hc, hprogram, hdump, hvalue, hnames,
          hdocument, hread⟩

end IcFront
