import IcFront.Proofs.Grammar.TypesRead
import IcFront.Proofs.Tables.InFront
import IcFront.Proofs.Types.Anchored
import IcFront.Proofs.Types.Listed

/-!
# Listings of the types of a program

The type table of a program that was read from a text is legible (`legible_ofProgram`):
its types are made of what a search finds, since a program asks for types in the right
order, and its class names look like class names, since they were read as such. Several
classes may have one name. So the listing shows every type once, and two such tables under
one name are the same if their listings are (`type_listing_faithful`).
-/

namespace IcFront

variable {ε : Type}

/-- A class is written with its name. -/
theorem Program.className_mem_marks {p : Program Expr} {className : String}
    (h : className ∈ p.declared) : .className className ∈ p.marks := by
  obtain ⟨c, hc, rfl⟩ := List.mem_map.mp h
  refine List.mem_flatMap.mpr ⟨c, hc, ?_⟩
  simp [ClassDecl.marks, classHeading]

namespace SymbolTables

/-! ## The table of a program -/

/-- The types of a program are made of what a search finds. -/
theorem anchored_ofProgram (p : Program ε) (name : String) :
    (ofProgram p name).1.types.Anchored := by
  have hregistered : (registered p name).1.types.Anchored := by
    intro e he part hpart
    rw [registered_types] at he
    have hnone : e.parts = [] := by
      rcases List.mem_append.mp he with he | he
      · obtain ⟨kind, -, rfl⟩ := List.mem_map.mp he
        rfl
      · obtain ⟨className, -, rfl⟩ := List.mem_map.mp he
        rfl
    rw [hnone] at hpart
    cases hpart
  have hasked := hregistered.askAll (registered_knows p name) (List.forall_mem_nil _)
    p.prepared_asks
  have hentries := ofProgram_entries p name
  intro e he part hpart
  obtain ⟨x, hx⟩ := hasked e (hentries ▸ he) part hpart
  exact ⟨x, (TypeTable.find?_congr hentries x).trans hx⟩

theorem types_name (p : Program ε) (name : String) : (ofProgram p name).1.types.name = name := by
  rw [ofProgram_types, (linked_linkedTo p name (Nat.le_refl _)).name_eq,
    (grows_unlinked p name).name_eq, registered_types]

/-- Tables of one name are the same if their types and superclasses are. -/
theorem types_eq_of_entries {p p' : Program ε} {name : String}
    (hentries : (ofProgram p name).1.types.entries = (ofProgram p' name).1.types.entries)
    (hsuper :
      (ofProgram p name).1.types.superclasses = (ofProgram p' name).1.types.superclasses) :
    (ofProgram p name).1.types = (ofProgram p' name).1.types := by
  have hname := (types_name p name).trans (types_name p' name).symm
  revert hname hentries hsuper
  cases (ofProgram p name).1.types
  cases (ofProgram p' name).1.types
  rintro rfl rfl rfl
  rfl

/-- The classes of the table are those of the program. -/
theorem mem_declared_of_entry {p : Program ε} {name className : String} {id : Int}
    (h : (ofProgram p name).1.types.entry? id = some (.class_ className)) :
    className ∈ p.declared := by
  obtain ⟨more, hentries, hkind⟩ := entries_ofProgram p name
  obtain ⟨i, rfl, -⟩ := (TypeTable.holds_of_entry h).index
  rw [TypeTable.entry?_succ] at h
  have hmem := List.mem_of_getElem? h
  rw [hentries, List.mem_append, List.mem_append] at hmem
  rcases hmem with hprimitive | hclass | hmore
  · obtain ⟨kind, -, heq⟩ := List.mem_map.mp hprimitive
    cases heq
  · obtain ⟨declaredName, hdeclared, heq⟩ := List.mem_map.mp hclass
    exact TypeEntry.class_.inj heq ▸ hdeclared
  · exact absurd rfl (hkind _ hmore)

theorem legible_ofProgram {source : String} {p : Program Expr}
    (h : Program.parse source = .ok p) (name : String) : (ofProgram p name).1.types.Legible where
  sound := ofProgram_types_sound p name
  admits id e he := by
    obtain ⟨i, hi, -⟩ := (TypeTable.holds_of_entry he).index
    refine ⟨fun part hpart => ?_, fun className heq => ?_⟩
    · rw [hi, TypeTable.entry?_succ] at he
      exact anchored_ofProgram p name e (List.mem_of_getElem? he) part hpart
    · subst heq
      exact Program.className_of_parse h
        (Program.className_mem_marks (mem_declared_of_entry he))

/-- Superclasses are classes of classes. -/
theorem inherits_ofProgram (p : Program ε) (name : String) :
    (ofProgram p name).1.types.Inherits := by
  intro id s hs
  obtain ⟨newer, older, hmem, -⟩ := List.lookup_eq_some_iff.mp hs
  have hmem : (id, s) ∈ (ofProgram p name).1.types.superclasses :=
    hmem ▸ List.mem_append_right newer List.mem_cons_self
  rw [ofProgram_types, superclasses_linkedTo p name (Nat.le_refl _), List.mem_reverse] at hmem
  obtain ⟨i, hi, hedge⟩ := List.mem_filterMap.mp hmem
  obtain ⟨j, hj, heq⟩ := Option.map_eq_some_iff.mp hedge
  obtain ⟨rfl, rfl⟩ := Prod.mk.inj heq
  have hlinked := linked_linkedTo p name (Nat.le_refl p.classes.length)
  have hclass : ∀ k, k < p.classes.length →
      ∃ className, (ofProgram p name).1.types.entry? (classId k) = some (.class_ className) := by
    intro k hk
    rw [ofProgram_types]
    exact ⟨_, hlinked.entry?_classId (List.getElem?_eq_getElem hk)⟩
  obtain ⟨superclass, hsuper⟩ := hclass j (Program.lt_of_accepted hj)
  exact ⟨TypeTable.holds_of_entry hsuper, hclass i (List.mem_range.mp hi)⟩

/-! ## The main result -/

/-- The types of a program are listed in full, and can be read back from the listing. -/
theorem type_listing_faithful {source source' : String} {p p' : Program Expr}
    (h : Program.parse source = .ok p) (h' : Program.parse source' = .ok p') (name : String) :
    let t := (ofProgram p name).1.types
    let t' := (ofProgram p' name).1.types
    (∃ text, t.listing = .ok text ∧ t.Shows text) ∧
      (t.listing = t'.listing →
        t.entries = t'.entries ∧ ∀ id, t.superclassOf id = t'.superclassOf id) := by
  intro t t'
  refine ⟨(legible_ofProgram h name).shows (inherits_ofProgram p name), fun heq => ?_⟩
  exact (legible_ofProgram h name).eq_of_listing (legible_ofProgram h' name)
    (inherits_ofProgram p name) (inherits_ofProgram p' name)
    ((types_name p name).trans (types_name p' name).symm) heq

/-- Two programs with two classes of one name, which give other names to what they declare
but ask for the same types. -/
theorem type_listing_faithful_renamed :
    let text := "class A \x7b int[] x; \x7d class A extends A \x7b A m(int a) \x7b \x7d \x7d"
    let text' := "class A \x7b int[] y; \x7d class A extends A \x7b A k(int b) \x7b \x7d \x7d"
    ∃ p p' : Program Expr, Program.parse text = .ok p ∧ Program.parse text' = .ok p' ∧
      (∃ t, (ofProgram p "a.ic").1.types.listing = .ok t ∧ (ofProgram p "a.ic").1.types.Shows t) ∧
      (ofProgram p "a.ic").1.types.listing = (ofProgram p' "a.ic").1.types.listing ∧
      (ofProgram p "a.ic").1.types.entries = (ofProgram p' "a.ic").1.types.entries := by
  intro text text'
  have hsame : (match Program.parse text, Program.parse text' with
      | .ok p, .ok p' => decide ((ofProgram p "a.ic").1.types.entries =
          (ofProgram p' "a.ic").1.types.entries ∧
        (ofProgram p "a.ic").1.types.superclasses = (ofProgram p' "a.ic").1.types.superclasses)
      | _, _ => false) = true := by decide +kernel
  split at hsame
  next p p' hp hp' =>
    obtain ⟨hentries, hsuper⟩ := of_decide_eq_true hsame
    have htypes := types_eq_of_entries hentries hsuper
    obtain ⟨hshows, hback⟩ := type_listing_faithful hp hp' "a.ic"
    have hlisting := congrArg TypeTable.listing htypes
    exact ⟨p, p', hp, hp', hshows, hlisting, (hback hlisting).1⟩
  next => cases hsame

end SymbolTables

end IcFront
