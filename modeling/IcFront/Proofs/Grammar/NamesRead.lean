import IcFront.Proofs.Grammar.TypesRead
import IcFront.Proofs.Outline

/-!
# Names that are read

What a program that was read from a text declares has a word for a name, and is of the kind
that its type suits; and so has every class and method, while blocks have no name
(`Program.titled_of_parse`). A name is declared where it is written, so that it is enough
that the names among the marks of a program are words (`Named`). This goes down the syntax
tree together with the outline: what is written in a part of a program is all that the
regions of this part can declare.
-/

namespace IcFront

/-- A text of letters, digits and underscores. -/
def IsWord (text : String) : Prop := ∀ c ∈ text.toList, isWordChar c = true

theorem IsWord.not_mem {text : String} (h : IsWord text) {c : Char} (hc : isWordChar c = false) :
    c ∉ text.toList := by
  intro hmem
  rw [h c hmem] at hc
  cases hc

/-- The kinds of symbol that a declared type suits. -/
def DeclaredType.Suits (kind : SymbolKind) : DeclaredType → Prop
  | class_ => kind = .class_
  | value _ => kind ≠ .class_ ∧ kind.isMethod = false
  | method _ _ => kind.isMethod = true

/-- A declaration as it can be read. -/
structure Declaration.Read (x : Declaration) : Prop where
  name : IsWord x.name
  suits : x.type.Suits x.kind

/-- What a region inside a program is called and declares if it was read. -/
structure Titled (kind : ScopeKind) (title : String) (xs : List Declaration) : Prop where
  word : IsWord title
  block : kind = .block → title = ""
  declarations : ∀ x ∈ xs, x.Read

/-! ## Outlines -/

namespace Outline

variable {P : ScopeKind → String → List Declaration → Prop}

mutual

/-- Something holds of an outline and of all in it. -/
def All (P : ScopeKind → String → List Declaration → Prop) : Outline → Prop
  | .region kind name xs inner => P kind name xs ∧ AllOf P inner

/-- Something holds of outlines and of all in them. -/
def AllOf (P : ScopeKind → String → List Declaration → Prop) : List Outline → Prop
  | [] => True
  | o :: os => o.All P ∧ AllOf P os

end

theorem AllOf.append {os os' : List Outline} (h : AllOf P os) (h' : AllOf P os') :
    AllOf P (os ++ os') := by
  induction os with
  | nil => exact h'
  | cons o os ih => exact ⟨h.1, ih h.2⟩

theorem allOf_map {α : Type} {f : α → Outline} {xs : List α} (h : ∀ x ∈ xs, (f x).All P) :
    AllOf P (xs.map f) := by
  induction xs with
  | nil => trivial
  | cons x xs ih =>
    rw [List.forall_mem_cons] at h
    exact ⟨h.1, ih h.2⟩

mutual

/-- What holds of an outline holds of its regions. -/
theorem All.regions {outer : Option Nat} {key : Nat} : ∀ {o : Outline}, o.All P →
    ∀ r ∈ o.regions outer key, P r.kind r.name r.declarations
  | .region kind name xs inner, h, r, hr => by
    rw [Outline.regions, List.mem_cons] at hr
    rcases hr with rfl | hinner
    · exact h.1
    · exact AllOf.regionsOf h.2 r hinner

theorem AllOf.regionsOf {outer : Option Nat} {key : Nat} : ∀ {os : List Outline}, AllOf P os →
    ∀ r ∈ Outline.regionsOf outer key os, P r.kind r.name r.declarations
  | [], _, r, hr => absurd hr List.not_mem_nil
  | o :: os, h, r, hr => by
    rw [Outline.regionsOf, List.mem_append] at hr
    rcases hr with hfirst | hrest
    · exact All.regions h.1 r hfirst
    · exact AllOf.regionsOf h.2 r hrest

end

end Outline

open Outline

/-! ## Marks and names -/

/-- The names among marks are words. -/
def Named (marks : List Mark) : Prop :=
  ∀ text, .name text ∈ marks ∨ .className text ∈ marks → IsWord text

theorem Named.mono {marks marks' : List Mark} (h : Named marks) (hsub : marks' ⊆ marks) :
    Named marks' :=
  fun text hmem => h text (hmem.imp (fun h => hsub h) fun h => hsub h)

theorem Stmt.locals_read : ∀ {s : Stmt Expr}, Named s.marks → ∀ x ∈ s.locals, x.Read
  | .localVar type name initial line, h, x, hx => by
    rw [locals, List.mem_singleton] at hx
    subst hx
    refine ⟨h name (Or.inl ?_), ⟨by simp, rfl⟩⟩
    cases initial <;> rw [marks] <;> simp
  | .ifThen _ body _, h, x, hx => by
    rw [locals] at hx
    rw [marks] at h
    exact locals_read (h.mono fun m hm => by simp [hm]) x hx
  | .ifElse _ body otherwise _, h, x, hx => by
    rw [locals, List.mem_append] at hx
    rw [marks] at h
    rcases hx with hbody | hotherwise
    · exact locals_read (h.mono fun m hm => by simp [hm]) x hbody
    · exact locals_read (h.mono fun m hm => by simp [hm]) x hotherwise
  | .while_ _ body _, h, x, hx => by
    rw [locals] at hx
    rw [marks] at h
    exact locals_read (h.mono fun m hm => by simp [hm]) x hx
  | .block .., _, x, hx | .assign .., _, x, hx | .call .., _, x, hx | .return_ .., _, x, hx
  | .break_ _, _, x, hx | .continue_ _, _, x, hx => by
    rw [locals] at hx
    · exact absurd hx List.not_mem_nil
    all_goals simp

theorem Stmt.marks_subset_marksOf {s : Stmt Expr} {ss : List (Stmt Expr)} (h : s ∈ ss) :
    s.marks ⊆ marksOf ss := by
  induction ss with
  | nil => cases h
  | cons s' ss ih =>
    rw [marksOf]
    rcases List.mem_cons.mp h with rfl | h
    · exact List.subset_append_left _ _
    · exact List.subset_append_of_subset_right _ (ih h)

theorem Stmt.flatMap_locals_read {ss : List (Stmt Expr)} (h : Named (marksOf ss)) :
    ∀ x ∈ ss.flatMap locals, x.Read := by
  intro x hx
  obtain ⟨s, hs, hx⟩ := List.mem_flatMap.mp hx
  exact locals_read (h.mono (marks_subset_marksOf hs)) x hx

mutual

theorem Stmt.blocks_titled : ∀ {s : Stmt Expr}, Named s.marks → AllOf Titled s.blocks
  | .block body _ _, h => by
    rw [marks] at h
    rw [blocks]
    have hbody : Named (marksOf body) := h.mono fun m hm => by simp [hm]
    refine ⟨⟨⟨fun c hc => absurd hc (by simp), fun _ => rfl, ?_⟩, ?_⟩, trivial⟩
    · exact flatMap_locals_read hbody
    · exact blocksOf_titled hbody
  | .ifThen _ body _, h => by
    rw [marks] at h
    rw [blocks]
    exact blocks_titled (h.mono fun m hm => by simp [hm])
  | .ifElse _ body otherwise _, h => by
    rw [marks] at h
    rw [blocks]
    exact (blocks_titled (h.mono fun m hm => by simp [hm])).append
      (blocks_titled (h.mono fun m hm => by simp [hm]))
  | .while_ _ body _, h => by
    rw [marks] at h
    rw [blocks]
    exact blocks_titled (h.mono fun m hm => by simp [hm])
  | .localVar .., _ | .assign .., _ | .call .., _ | .return_ .., _ | .break_ _, _
  | .continue_ _, _ => by
    rw [blocks]
    · trivial
    all_goals simp

theorem Stmt.blocksOf_titled : ∀ {ss : List (Stmt Expr)}, Named (marksOf ss) →
    AllOf Titled (blocksOf ss)
  | [], _ => trivial
  | s :: ss, h => by
    rw [marksOf] at h
    rw [blocksOf]
    exact (blocks_titled (h.mono (List.subset_append_left _ _))).append
      (blocksOf_titled (h.mono (List.subset_append_right _ _)))

end

/-! ## Classes -/

theorem Method.outline_titled {m : Method Expr} (h : Named m.marks) : m.outline.All Titled := by
  have hname : IsWord m.name := h m.name (Or.inl (by simp [marks]))
  have hbody : Named (Stmt.marksOf m.form.body) := by
    refine h.mono fun x hx => ?_
    have hclosing : x ∈ m.form.closing := by
      cases hform : m.form <;> rw [hform] at hx
      case library => exact absurd hx List.not_mem_nil
      all_goals exact List.mem_append_left _ (List.mem_cons_of_mem _ hx)
    simp [marks, hclosing]
  refine ⟨⟨hname, by simp, fun x hx => ?_⟩, Stmt.blocksOf_titled hbody⟩
  rcases List.mem_append.mp hx with hformal | hlocal
  · obtain ⟨f, hf, rfl⟩ := List.mem_map.mp hformal
    refine ⟨h f.name (Or.inl ?_), ⟨by simp [Formal.declaration], rfl⟩⟩
    have hmem := mem_argumentMarks (List.mem_map_of_mem (f := Formal.marks) hf)
      (m := .name f.name) (by simp [Formal.marks])
    simp [marks, hmem]
  · exact Stmt.flatMap_locals_read hbody x hlocal

theorem ClassDecl.outline_titled {c : ClassDecl Expr} (h : Named c.marks) :
    c.outline.All Titled := by
  have hname : IsWord c.name := h c.name (Or.inr (by simp [marks, classHeading]))
  have hmethod : ∀ m ∈ c.methods, Named m.marks := by
    intro m hm
    refine h.mono fun x hx => ?_
    have hmem : x ∈ c.methods.flatMap Method.marks := List.mem_flatMap.mpr ⟨m, hm, hx⟩
    simp [marks, hmem]
  refine ⟨⟨hname, by simp, fun x hx => ?_⟩,
    allOf_map fun m hm => Method.outline_titled (hmethod m hm)⟩
  rcases List.mem_append.mp hx with hfield | hmethods
  · obtain ⟨f, hf, rfl⟩ := List.mem_map.mp hfield
    refine ⟨h f.name (Or.inl ?_), ⟨by simp [Field.declaration], rfl⟩⟩
    have hmem : .name f.name ∈ c.fields.flatMap Field.marks :=
      List.mem_flatMap.mpr ⟨f, hf, by simp [Field.marks]⟩
    simp [marks, hmem]
  · obtain ⟨m, hm, rfl⟩ := List.mem_map.mp hmethods
    refine ⟨hmethod m hm m.name (Or.inl (by simp [Method.marks])), ?_⟩
    cases hform : m.form <;>
      simp [Method.declaration, hform, DeclaredType.Suits, SymbolKind.isMethod]

/-! ## Programs -/

theorem Program.named_of_parse {source : String} {p : Program Expr}
    (h : Program.parse source = .ok p) : Named p.marks := by
  intro text hmem
  rcases hmem with hname | hclass
  · exact Program.name_of_parse h hname
  · obtain ⟨c, cs, hcs, hupper, hrest⟩ := Program.className_of_parse h hclass
    intro d hd
    rw [hcs] at hd
    rcases List.mem_cons.mp hd with rfl | hd
    · simp [isWordChar, hupper]
    · exact hrest d hd

/-- The regions of a program that is read have words for names, and declare what has words
for names. The program itself is called as one likes. -/
theorem Program.titled_of_parse {source : String} {p : Program Expr}
    (h : Program.parse source = .ok p) (name : String) {r : Region} (hr : r ∈ p.regions name) :
    (r.kind = .global ∧ ∀ x ∈ r.declarations, x.Read) ∨
      Titled r.kind r.name r.declarations := by
  have hclass : ∀ c ∈ p.classes, Named c.marks := fun c hc =>
    (Program.named_of_parse h).mono fun x hx => List.mem_flatMap.mpr ⟨c, hc, hx⟩
  rcases List.mem_cons.mp hr with rfl | hr
  · refine Or.inl ⟨rfl, fun x hx => ?_⟩
    obtain ⟨c, hc, rfl⟩ := List.mem_map.mp hx
    exact ⟨hclass c hc c.name (Or.inr (by simp [ClassDecl.marks, classHeading])), rfl⟩
  · have hall : AllOf Titled (p.classes.map ClassDecl.outline) :=
      allOf_map fun c hc => ClassDecl.outline_titled (hclass c hc)
    exact Or.inr (hall.regionsOf r hr)

end IcFront
