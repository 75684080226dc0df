import IcFront.Proofs.Tables.Numbering

/-!
# Nodes and the scopes they open

The program that comes with its tables says where the scope of each class and of each
method is: the node carries the key. Under that key stands the scope that holds what the
node declares (`scope_of_pair`), as the parameters and local variables of a method
(`method_scope`).

Nodes and regions are listed in the same order, so that a node and its region are a pair
of the two lists (`Program.method_pair`).
-/

namespace IcFront

variable {α ε : Type}

open Outline

/-! ## Nodes and their regions -/

/-- The pairs of regions and nodes of one among several outlines are pairs of all. -/
theorem zip_subset_of_mem {f : α → Outline} {g : α → List Opening}
    (h : ∀ x outer key, SameTitles ((f x).regions outer key) (g x)) (outer : Option Nat)
    (key : Nat) {xs : List α} {x : α} (hx : x ∈ xs) :
    ∃ key', ((f x).regions outer key').zip (g x) ⊆
      (regionsOf outer key (xs.map f)).zip (xs.flatMap g) := by
  induction xs generalizing key with
  | nil => cases hx
  | cons y ys ih =>
    rw [List.map_cons, regionsOf, List.flatMap_cons, List.zip_append (h y outer key).length_eq]
    rcases List.mem_cons.mp hx with rfl | hx
    · exact ⟨key, List.subset_append_left _ _⟩
    · obtain ⟨key', hsub⟩ := ih (key + (f y).size) hx
      exact ⟨key', List.subset_append_of_subset_right _ hsub⟩

/-- What a region is of, and the names it declares. -/
structure Region.Of (r : Region) (kind : ScopeKind) (name : String)
    (declarations : List Declaration) : Prop where
  kind_eq : r.kind = kind
  name_eq : r.name = name
  declarations_eq : r.declarations = declarations

namespace Program

variable {p : Program ε} {c : ClassDecl ε} {m : Method ε}

theorem class_pairs (name : String) (hc : c ∈ p.classes) : ∃ key,
    (c.outline.regions (some 0) key).zip c.openings ⊆
      (p.regions name).zip (p.openings name) := by
  obtain ⟨key, hsub⟩ := zip_subset_of_mem ClassDecl.sameTitles (some 0) 1 hc
  exact ⟨key, fun x hx => List.mem_cons_of_mem _ (hsub hx)⟩

/-- A method has a region, which declares its parameters and local variables. -/
theorem method_pair (name : String) (hc : c ∈ p.classes) (hm : m ∈ c.methods) : ∃ r : Region,
    r.Of .method m.name
      (m.formals.map Formal.declaration ++ m.form.body.flatMap Stmt.locals) ∧
    (r, ⟨.method, m.name, m.scope⟩) ∈ (p.regions name).zip (p.openings name) := by
  obtain ⟨key, hsub⟩ := class_pairs name hc
  obtain ⟨key', hsub'⟩ := zip_subset_of_mem Method.sameTitles (some key) (key + 1) hm
  exact ⟨_, ⟨rfl, rfl, rfl⟩, hsub (List.mem_cons_of_mem _ (hsub' List.mem_cons_self))⟩

theorem declared_unscoped (p : Program ε) : p.unscoped.declared = p.declared := by
  rw [declared, unscoped, List.map_map]
  rfl

end Program

/-! ## Nodes and their scopes -/

namespace SymbolTables

variable {p : Program ε} {name : String} {c : ClassDecl ε} {m : Method ε}

/-- The scope of a region stands at its position, and holds what the region keeps. -/
theorem get?_regions {k : Nat} {r : Region} (hr : (p.regions name)[k]? = some r) :
    ∃ s, (ofProgram p name).1.scopes.get? k = some s ∧ s.kind = r.kind ∧ s.name = r.name ∧
      s.symbols =
        (kept p.declared r.declarations).map (·.symbol (ofProgram p name).1.types) := by
  have hmap := congrArg (·[k]?)
    (linked_linkedTo p name (Nat.le_refl p.classes.length)).map_regions
  rw [← ofProgram_scopes, ← ofProgram_types] at hmap
  simp only [List.getElem?_map, hr, Option.map_some] at hmap
  obtain ⟨s, hs, hsame⟩ := Option.map_eq_some_iff.mp hmap
  simp only [Prod.mk.injEq] at hsame
  exact ⟨s, hs, hsame⟩

/-- The tables of the program that comes with its tables are these tables. -/
theorem ofProgram_ofProgram (p : Program ε) (name : String) :
    ofProgram (ofProgram p name).2 name = ofProgram p name := by
  rw [← ofProgram_unscoped, (ofProgram_snd_openings p name).2, ofProgram_unscoped]

theorem declared_ofProgram (p : Program ε) (name : String) :
    (ofProgram p name).2.declared = p.declared := by
  rw [← Program.declared_unscoped, (ofProgram_snd_openings p name).2, Program.declared_unscoped]

/-- The key of a node is the position of its region. -/
theorem scope_of_pair {r : Region} {o : Opening}
    (h : (r, o) ∈ ((ofProgram p name).2.regions name).zip ((ofProgram p name).2.openings name)) :
    ∃ k s, o.scope = some k ∧ (ofProgram p name).1.scopes.get? k = some s ∧ s.kind = r.kind ∧
      s.name = r.name ∧ s.symbols =
        (kept p.declared r.declarations).map (·.symbol (ofProgram p name).1.types) := by
  obtain ⟨k, hk⟩ := List.mem_iff_getElem?.mp h
  obtain ⟨hr, ho⟩ := List.getElem?_zip_eq_some.mp hk
  obtain ⟨s, hs⟩ := get?_regions hr
  rw [ofProgram_ofProgram, declared_ofProgram] at hs
  refine ⟨k, s, ?_, hs⟩
  rw [(ofProgram_snd_openings p name).1, Opening.numbered, List.getElem?_map,
    List.getElem?_zipIdx] at ho
  obtain ⟨_, hnode, rfl⟩ := Option.map_eq_some_iff.mp ho
  obtain ⟨_, -, rfl⟩ := Option.map_eq_some_iff.mp hnode
  simp only [Nat.zero_add]

/-- A method carries the key of its scope, which holds its parameters and local
variables. -/
theorem method_scope (hc : c ∈ (ofProgram p name).2.classes) (hm : m ∈ c.methods) :
    ∃ k s, m.scope = some k ∧ (ofProgram p name).1.scopes.get? k = some s ∧ s.kind = .method ∧
      s.name = m.name ∧ s.symbols =
        (kept p.declared
          (m.formals.map Formal.declaration ++ m.form.body.flatMap Stmt.locals)).map
          (·.symbol (ofProgram p name).1.types) := by
  obtain ⟨r, hr, hpair⟩ := Program.method_pair name hc hm
  obtain ⟨k, s, hk, hs, hkind, hname, hsymbols⟩ := scope_of_pair hpair
  rw [hr.kind_eq] at hkind
  rw [hr.name_eq] at hname
  rw [hr.declarations_eq] at hsymbols
  exact ⟨k, s, hk, hs, hkind, hname, hsymbols⟩

end SymbolTables

end IcFront
