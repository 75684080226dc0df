import IcFront.Proofs.Tables.CheckedLinking
import IcFront.Proofs.Types.Spelled

/-!
# Finished tables, read off the program

What a reader of finished tables gets to see does not take their ids: symbols and
superclasses by the descriptions of types. A program determines all of this. The symbols
of a scope are described as the declarations that its region keeps are spelled
(`described_symbols`), the superclass of a class is the one accepted
(`superclass?_of_denoted`), and a scope that is not that of a class has the parent that
its region names (`parentOf_of_notMem`).
-/

namespace IcFront

variable {ε : Type}

/-- A symbol without the id of its type: instead of it there is what describes the type. -/
structure Described where
  name : String
  kind : SymbolKind
  line : Int
  type : Except TypeFault String

/-- The description of the symbol that a declaration makes. -/
def Declaration.described (x : Declaration) : Described :=
  ⟨x.name, x.kind, x.line, .ok (x.type.spelling x.name)⟩

namespace SymbolTables

/-- The description of a symbol. -/
def described (t : SymbolTables) (s : Symbol) : Described :=
  ⟨s.name, s.kind, s.line, t.types.describe s.type⟩

/-- The description of the superclass of the class that a name means. -/
def superclass? (t : SymbolTables) (className : String) : Option (Except TypeFault String) :=
  ((t.types.lookupClass className).bind t.types.superclassOf).map t.types.describe

section Finished

variable (p : Program ε) (name : String)

/-- Where a region stands there is a scope, which declares what the region keeps. -/
theorem get?_ofProgram {r : Region} {k : Nat} (hr : (r, k) ∈ p.loose name) :
    ∃ s, (ofProgram p name).1.scopes.get? k = some s ∧ s.kind = r.kind ∧ s.name = r.name ∧
      s.symbols =
        (kept p.declared r.declarations).map (·.symbol (ofProgram p name).1.types) := by
  have h := linked_linkedTo p name (Nat.le_refl p.classes.length)
  have hbare := congrArg (·[k]?) h.bare
  have hunlinked := (get?_unlinked p name).mpr ⟨r, hr, rfl⟩
  rw [Arena.get?] at hunlinked
  simp only [List.getElem?_map, hunlinked, Option.map_some] at hbare
  obtain ⟨s, hs, hsame⟩ := Option.map_eq_some_iff.mp hbare
  rw [ofProgram_scopes, ofProgram_types]
  refine ⟨s, hs, congrArg Scope.kind hsame, congrArg Scope.name hsame, ?_⟩
  refine (congrArg Scope.symbols hsame).trans (List.map_congr_left fun x _ => ?_)
  exact Declaration.symbol_congr h.entries.symm x

/-- The scope of a region, its symbols by their descriptions. -/
theorem described_symbols {r : Region} {k : Nat} (hr : (r, k) ∈ p.loose name) :
    ∃ s, (ofProgram p name).1.scopes.get? k = some s ∧ s.kind = r.kind ∧ s.name = r.name ∧
      s.symbols.map (ofProgram p name).1.described =
        (kept p.declared r.declarations).map Declaration.described := by
  obtain ⟨s, hs, hkind, hname, hsymbols⟩ := get?_ofProgram p name hr
  refine ⟨s, hs, hkind, hname, ?_⟩
  rw [hsymbols, List.map_map]
  refine List.map_congr_left fun x hx => ?_
  have hmem : x.symbol (ofProgram p name).1.types ∈ (ofProgram p name).1.scopes.symbols :=
    Arena.mem_symbols.mpr ⟨k, s, hs, hsymbols ▸ List.mem_map_of_mem hx⟩
  have hdescribe := (ofProgram_types_sound p name).describe_symbol (ofProgram_holds p name hmem)
  rw [Function.comp_apply, described, hdescribe]
  rfl

/-- The types of finished tables: the primitive ones, the classes of the program, and others. -/
theorem entries_ofProgram : ∃ more, (ofProgram p name).1.types.entries =
      PrimitiveKind.all.map .primitive ++ (p.declared.map .class_ ++ more) ∧
    ∀ e ∈ more, e.kind ≠ .class_ := by
  obtain ⟨more, hmore, hkind⟩ := (grows_unlinked p name).entries_eq
  refine ⟨more, ?_, hkind⟩
  rw [ofProgram_types, (linked_linkedTo p name (Nat.le_refl _)).entries, hmore, registered_types,
    List.append_assoc]

/-- The id of a class is that of its own entry. -/
theorem entry?_classId {i : Nat} {c : ClassDecl ε} (hc : p.classes[i]? = some c) :
    (ofProgram p name).1.types.entry? (classId i) = some (.class_ c.name) := by
  rw [ofProgram_types]
  exact (linked_linkedTo p name (Nat.le_refl p.classes.length)).entry?_classId hc

/-- The type of a class is described by its name. -/
theorem describe_classId {i : Nat} {c : ClassDecl ε} (hc : p.classes[i]? = some c) :
    (ofProgram p name).1.types.describe (classId i) = .ok c.name :=
  TypeTable.describe_class (entry?_classId p name hc)

/-- A name means the same class to the types as in the program. -/
theorem lookupClass_ofProgram (className : String) :
    (ofProgram p name).1.types.lookupClass className = (p.denoted? className).map classId := by
  rw [ofProgram_types, (linked_linkedTo p name (Nat.le_refl _)).lookupClass_eq]

theorem superclass?_of_denoted {className : String} {i : Nat}
    (hi : p.denoted? className = some i) :
    (ofProgram p name).1.superclass? className =
      (accepted p.superclass? i).map fun j => (ofProgram p name).1.types.describe (classId j) := by
  have h := linked_linkedTo p name (Nat.le_refl p.classes.length)
  rw [superclass?, lookupClass_ofProgram, hi, Option.map_some, Option.bind_some, ofProgram_types,
    h.superclassOf, if_pos (Program.denoted?_lt hi), Option.map_map]
  rfl

theorem superclass?_of_not_denoted {className : String} (hnone : p.denoted? className = none) :
    (ofProgram p name).1.superclass? className = none := by
  rw [superclass?, lookupClass_ofProgram, hnone]
  rfl

/-- There are as many scopes as regions. -/
theorem size_ofProgram :
    (ofProgram p name).1.scopes.size = Outline.sizes (p.classes.map ClassDecl.outline) + 1 := by
  rw [ofProgram_scopes, (linked_linkedTo p name (Nat.le_refl p.classes.length)).size,
    size_unlinked]

theorem exists_loose {k : Nat} (hk : k < (ofProgram p name).1.scopes.size) :
    ∃ r, (r, k) ∈ p.loose name := by
  rw [ofProgram_scopes, (linked_linkedTo p name (Nat.le_refl p.classes.length)).size] at hk
  obtain ⟨s, hs⟩ := Arena.get?_eq_some hk
  obtain ⟨r, hr, -⟩ := (get?_unlinked p name).mp hs
  exact ⟨r, hr⟩

theorem parentOf_classKey {i : Nat} (hi : i < p.classes.length) :
    (ofProgram p name).1.scopes.parentOf (p.classKey i) = some (p.parentKey i) := by
  rw [ofProgram_scopes, (linked_linkedTo p name (Nat.le_refl p.classes.length)).parentOf_class i hi,
    if_pos hi]

/-- Every scope but those of classes has the parent that its region names. -/
theorem parentOf_of_notMem {r : Region} {k : Nat} (hr : (r, k) ∈ p.loose name)
    (hk : k ∉ p.classKeys) : (ofProgram p name).1.scopes.parentOf k = r.outer := by
  rw [ofProgram_scopes,
    (linked_linkedTo p name (Nat.le_refl p.classes.length)).parentOf_other k hk, Arena.parentOf,
    (get?_unlinked p name).mpr ⟨r, hr, rfl⟩]
  rfl

end Finished

end SymbolTables

end IcFront
