import IcFront.Proofs.Tables.Linkage

/-!
# The tree of scopes

The finished scopes of a program are one tree below the global scope
(`scopes_form_tree`), and each stands where its region does in the program. The
scopes of methods and blocks have as children what lies in their regions, in
source order. A class has its methods and then the classes placed below it, and
the global scope the classes that are placed below no other, both in the order of
declaration.

The symbols of each scope are the declarations that its region keeps
(`symbols_eq_kept`).
-/

namespace IcFront

variable {ε : Type}

open Outline

/-! ## Kinds of regions -/

namespace Program

variable {p : Program ε} {name : String} {r : Region} {k : Nat}

theorem kind_of_outer_eq_none (h : (r, k) ∈ p.loose name) (hk : k ∈ p.classKeys) :
    r.kind = .class_ := by
  have hnone := (outer_eq_none_iff h).mpr (Or.inr hk)
  rcases List.mem_cons.mp h with hglobal | hplaced
  · obtain ⟨_, rfl⟩ := Prod.mk.inj hglobal
    exact absurd hk p.zero_notMem_classKeys
  · rcases outer_mayHold _ (allFit_map ClassDecl.outline_fits p.classes) hplaced with
      ⟨_, hhold⟩ | ⟨_, o, _, ho, _⟩
    · cases hkind : r.kind <;> simp_all [ScopeKind.mayHold]
    · exact absurd (hnone.symm.trans ho) (by simp)

theorem kind_of_zero (h : (r, 0) ∈ p.loose name) : r.kind = .global := by
  rcases List.mem_cons.mp h with hglobal | hplaced
  · obtain ⟨rfl, _⟩ := Prod.mk.inj hglobal
    rfl
  · exact absurd (outer_of_mem_placed _ hplaced).1 (by omega)

/-- The global region is the program itself. -/
theorem eq_zero_of_kind (h : (r, k) ∈ p.loose name) (hkind : r.kind = .global) :
    k = 0 ∧ r.inner = [] := by
  have hnever : ∀ K : ScopeKind, K.mayHold .global = false := by
    intro K
    cases K <;> rfl
  rcases List.mem_cons.mp h with hglobal | hplaced
  · obtain ⟨rfl, rfl⟩ := Prod.mk.inj hglobal
    exact ⟨rfl, rfl⟩
  · rcases outer_mayHold _ (allFit_map ClassDecl.outline_fits p.classes) hplaced with
      ⟨_, hhold⟩ | ⟨_, _, _, _, hhold⟩ <;>
    · rw [hkind, hnever] at hhold
      exact absurd hhold (by simp)

/-- Classes belong below the global scope or a class. -/
theorem parentKey_mayHold (h : (r, k) ∈ p.loose name) {i : Nat} (hk : p.parentKey i = k) :
    r.kind = .global ∨ r.kind = .class_ := by
  subst hk
  cases hacc : accepted p.superclass? i with
  | none =>
    rw [parentKey_of_not_accepted hacc] at h
    exact Or.inl (kind_of_zero h)
  | some j =>
    rw [parentKey_of_accepted hacc] at h
    exact Or.inr (kind_of_outer_eq_none h (p.classKey_mem (lt_of_accepted hacc)))

theorem outer_kind_mayHold (h : (r, k) ∈ p.loose name) {o : Nat} (ho : r.outer = some o) :
    ∃ r', (r', o) ∈ p.loose name ∧ r'.kind.mayHold r.kind = true := by
  rcases List.mem_cons.mp h with hglobal | hplaced
  · obtain ⟨rfl, _⟩ := Prod.mk.inj hglobal
    exact absurd ho (by simp)
  · rcases outer_mayHold _ (allFit_map ClassDecl.outline_fits p.classes) hplaced with
      ⟨hnone, _⟩ | ⟨r', o', hr', ho', hhold⟩
    · exact absurd (hnone.symm.trans ho) (by simp)
    · obtain rfl := Option.some.inj (ho.symm.trans ho')
      exact ⟨r', List.mem_cons_of_mem _ hr', hhold⟩

/-- The region at a position of a program, as it is before classes are linked. -/
theorem regions_getElem? (h : (p.regions name)[k]? = some r) :
    ∃ r', (r', k) ∈ p.loose name ∧ r'.kind = r.kind ∧ (k ≠ 0 → r'.inner = r.inner) := by
  have hregions : p.regions name =
      ⟨.global, name, p.classes.map ClassDecl.declaration, none, p.classKeys⟩ ::
        regionsOf (some 0) 1 (p.classes.map ClassDecl.outline) := rfl
  rw [hregions] at h
  cases k with
  | zero =>
    obtain rfl := Option.some.inj h
    exact ⟨_, List.mem_cons_self, rfl, fun hne => absurd rfl hne⟩
  | succ k =>
    have hapart := congrArg (·[k]?)
      (regionsOf_apart (some 0) 1 (p.classes.map ClassDecl.outline))
    simp only [List.getElem?_map] at hapart
    rw [List.getElem?_cons_succ] at h
    rw [h, Option.map_some] at hapart
    obtain ⟨r', hr', hsame⟩ := Option.map_eq_some_iff.mp hapart.symm
    have hkind : r'.apart.kind = r.apart.kind := congrArg Region.kind hsame
    have hinner : r'.apart.inner = r.apart.inner := congrArg Region.inner hsame
    refine ⟨r', List.mem_cons_of_mem _ ?_, hkind, fun _ => hinner⟩
    rw [placed, List.mk_mem_zipIdx_iff_le_and_getElem?_sub]
    exact ⟨by omega, hr'⟩

end Program

namespace SymbolTables

variable {p : Program ε} {name : String} {d : Draft}

/-! ## Finished scopes -/

namespace Linked

variable (h : Linked p name p.classes.length d)
include h

theorem parentOf_classKey {x : Nat} (hx : x < p.classes.length) :
    d.scopes.parentOf (p.classKey x) = some (p.parentKey x) := by
  rw [h.parentOf_class x hx, if_pos hx]

theorem get?_loose {k : Nat} {s : Scope} (hs : d.scopes.get? k = some s) :
    ∃ r, (r, k) ∈ p.loose name ∧ r.kind = s.kind := by
  have hbare := congrArg (·[k]?) h.bare
  have hs' : d.scopes.scopes[k]? = some s := hs
  simp only [List.getElem?_map] at hbare
  rw [hs', Option.map_some] at hbare
  obtain ⟨s', hs', hsame⟩ := Option.map_eq_some_iff.mp hbare.symm
  obtain ⟨r, hr, rfl⟩ := (get?_unlinked p name).mp hs'
  exact ⟨r, hr, congrArg Scope.kind hsame⟩

/-- Each scope is a child of its parent and of no other. -/
theorem mem_childrenOf (k c : Nat) :
    c ∈ d.scopes.childrenOf k ↔ d.scopes.parentOf c = some k := by
  rw [h.childrenOf, List.mem_append, mem_childrenOf_unlinked, Program.placedUnder, List.mem_map]
  simp only [List.mem_filter, List.mem_range, decide_eq_true_eq]
  -- The parent of a class comes from linking alone, that of another scope from before.
  by_cases hc : c ∈ p.classKeys
  · obtain ⟨x, hx, rfl⟩ := p.mem_classKeys.mp hc
    rw [parentOf_unlinked_classKey p name hx, h.parentOf_classKey hx, Option.some_inj]
    constructor
    · intro hor
      rcases hor with hno | ⟨y, ⟨hy, hk⟩, hkey⟩
      · exact absurd hno (by simp)
      · exact p.classKey_inj hy hx hkey ▸ hk
    · intro hk
      exact Or.inr ⟨x, ⟨hx, hk⟩, rfl⟩
  · rw [h.parentOf_other c hc]
    constructor
    · intro hor
      rcases hor with hold | ⟨y, ⟨hy, _⟩, hkey⟩
      · exact hold
      · exact absurd (hkey ▸ p.classKey_mem hy) hc
    · exact Or.inl

theorem nodup_childrenOf (k : Nat) : (d.scopes.childrenOf k).Nodup := by
  rw [h.childrenOf, List.nodup_append]
  refine ⟨nodup_childrenOf_unlinked p name k, ?_, ?_⟩
  · refine List.Nodup.map_on (fun x hx y hy hkey => ?_) (List.nodup_range.filter _)
    exact p.classKey_inj (List.mem_range.mp (List.mem_filter.mp hx).1)
      (List.mem_range.mp (List.mem_filter.mp hy).1) hkey
  · intro c hc c' hplaced heq
    subst heq
    obtain ⟨x, hx, rfl⟩ := List.mem_map.mp hplaced
    have hlt := List.mem_range.mp (List.mem_filter.mp hx).1
    rw [mem_childrenOf_unlinked, parentOf_unlinked_classKey p name hlt] at hc
    exact absurd hc (by simp)

theorem parentOf_isSome {k : Nat} (hk : k < d.scopes.size) (hne : k ≠ 0) :
    (d.scopes.parentOf k).isSome := by
  by_cases hclass : k ∈ p.classKeys
  · obtain ⟨x, hx, rfl⟩ := p.mem_classKeys.mp hclass
    rw [h.parentOf_classKey hx]
    rfl
  · rw [h.parentOf_other k hclass, Option.isSome_iff_ne_none, Ne,
      parentOf_unlinked_eq_none p name (h.size ▸ hk)]
    intro hor
    rcases hor with rfl | hmem
    · exact hne rfl
    · exact hclass hmem

theorem isTree : d.scopes.IsTree 0 :=
  Arena.isTree_of_parents (by rw [h.size, size_unlinked]; exact Nat.succ_pos _) h.parentOf_zero
    (fun _ hk hne => h.parentOf_isSome hk hne) h.closed h.acyclic h.mem_childrenOf
    h.nodup_childrenOf

theorem mayHold_of_parentOf {c k : Nat} {s s' : Scope} (hk : d.scopes.get? k = some s)
    (hc : d.scopes.get? c = some s') (hparent : d.scopes.parentOf c = some k) :
    s.kind.mayHold s'.kind = true := by
  obtain ⟨r, hr, hkind⟩ := h.get?_loose hk
  obtain ⟨r', hr', hkind'⟩ := h.get?_loose hc
  rw [← hkind, ← hkind']
  by_cases hclass : c ∈ p.classKeys
  · have hcls := Program.kind_of_outer_eq_none hr' hclass
    obtain ⟨x, hx, rfl⟩ := p.mem_classKeys.mp hclass
    rw [h.parentOf_classKey hx, Option.some_inj] at hparent
    rcases Program.parentKey_mayHold hr hparent with hg | hg <;> rw [hg, hcls] <;> rfl
  · rw [h.parentOf_other c hclass, parentOf_unlinked] at hparent
    obtain ⟨r'', hr'', ho⟩ := hparent
    obtain rfl := Program.loose_unique hr' hr''
    obtain ⟨r₀, hr₀, hhold⟩ := Program.outer_kind_mayHold hr' ho
    obtain rfl := Program.loose_unique hr hr₀
    exact hhold

/-- The subclasses that a class is given are those classes whose parent it is. -/
theorem placedUnder_eq_filter (k : Nat) :
    p.placedUnder p.classes.length k =
      p.classKeys.filter fun c => d.scopes.parentOf c = some k := by
  rw [Program.placedUnder, p.classKeys_eq_map, List.filter_map]
  refine congrArg (List.map p.classKey) (List.filter_congr fun x hx => ?_)
  rw [Function.comp_apply, h.parentOf_classKey (List.mem_range.mp hx)]
  simp

/-- What the scope of a region holds. -/
theorem childrenOf_region {k : Nat} {r : Region} (hr : (p.regions name)[k]? = some r) :
    d.scopes.childrenOf k =
      match r.kind with
      | .method | .block => r.inner
      | .class_ => r.inner ++ p.classKeys.filter fun c => d.scopes.parentOf c = some k
      | .global => p.classKeys.filter fun c => d.scopes.parentOf c = some k := by
  obtain ⟨r', hr', hkind, hinner⟩ := Program.regions_getElem? hr
  have hpos : r.kind ≠ .global → k ≠ 0 := by
    intro hne hzero
    subst hzero
    exact hne (hkind ▸ Program.kind_of_zero hr')
  -- No class is placed below a method or a block.
  have hnone : r.kind = .method ∨ r.kind = .block → p.placedUnder p.classes.length k = [] := by
    intro hk
    rw [Program.placedUnder, List.map_eq_nil_iff, List.filter_eq_nil_iff]
    intro x _ hx
    rcases Program.parentKey_mayHold hr' (of_decide_eq_true hx) with hg | hg <;>
    · rw [← hkind, hg] at hk
      exact absurd hk (by simp)
  rw [h.childrenOf, childrenOf_unlinked p name hr', ← h.placedUnder_eq_filter k]
  cases hcase : r.kind with
  | global =>
    rw [(Program.eq_zero_of_kind hr' (hkind.trans hcase)).2]
    rfl
  | class_ => rw [hinner (hpos (by rw [hcase]; simp))]
  | method =>
    rw [hinner (hpos (by rw [hcase]; simp)), hnone (Or.inl hcase), List.append_nil]
  | block =>
    rw [hinner (hpos (by rw [hcase]; simp)), hnone (Or.inr hcase), List.append_nil]

/-- Each scope stands where its region does, and holds the symbols that the region
keeps. -/
theorem map_regions :
    d.scopes.scopes.map (fun s => (s.kind, s.name, s.symbols)) =
      (p.regions name).map fun r =>
        (r.kind, r.name, (kept p.declared r.declarations).map (·.symbol d.types)) := by
  let contents (s : Scope) := (s.kind, s.name, s.symbols)
  have hsymbol : ∀ x : Declaration, x.symbol (unlinked p name).1.types = x.symbol d.types :=
    Declaration.symbol_congr h.entries.symm
  have hbare : d.scopes.scopes.map contents =
      (unlinked p name).1.scopes.scopes.map contents := by
    have hmap := congrArg (List.map contents) h.bare
    rwa [List.map_map, List.map_map] at hmap
  have hregions : (p.regions name).map Region.apart =
      Region.apart ⟨.global, name, p.classes.map ClassDecl.declaration, none, p.classKeys⟩ ::
        (regionsOf none 1 (p.classes.map ClassDecl.outline)).map Region.apart := by
    rw [← regionsOf_apart (some 0)]
    rfl
  let asked (r : Region) :=
    (r.kind, r.name, (kept p.declared r.declarations).map (·.symbol d.types))
  have happart : (p.regions name).map asked = ((p.regions name).map Region.apart).map asked := by
    rw [List.map_map]
    rfl
  show d.scopes.scopes.map contents = (p.regions name).map asked
  rw [hbare, unlinked_scopes, happart, hregions, List.map_cons, List.map_cons, List.map_map,
    scopesOf, List.map_map]
  simp only [contents, asked, Region.scope, Region.apart, Function.comp_def, hsymbol]

end Linked

/-! ## The scopes of a program -/

theorem isTree_ofProgram (p : Program ε) (name : String) :
    (ofProgram p name).1.scopes.IsTree 0 := by
  rw [ofProgram_scopes]
  exact (linked_linkedTo p name (Nat.le_refl p.classes.length)).isTree

/-- The scopes of a program form one tree below the global scope, and follow its
regions: scopes of each kind lie where they may, what lies in a scope is in source
order, and subclasses and root classes are in the order of declaration. -/
theorem scopes_form_tree (p : Program ε) (name : String) :
    let t := (ofProgram p name).1
    t.scopes.IsTree t.globalScope ∧
      (t.scopes.walk t.globalScope).Perm (List.range t.scopes.size) ∧
      (∀ outer inner s s', t.scopes.get? outer = some s → t.scopes.get? inner = some s' →
        t.scopes.parentOf inner = some outer → s.kind.mayHold s'.kind = true) ∧
      t.scopes.scopes.map (fun s => (s.kind, s.name)) =
        (p.regions name).map (fun r => (r.kind, r.name)) ∧
      ∀ k r, (p.regions name)[k]? = some r →
        t.scopes.childrenOf k =
          match r.kind with
          | .method | .block => r.inner
          | .class_ => r.inner ++ t.classScopes.filter fun c => t.scopes.parentOf c = some k
          | .global => t.classScopes.filter fun c => t.scopes.parentOf c = some k := by
  intro t
  have h := linked_linkedTo p name (Nat.le_refl p.classes.length)
  have htree : t.scopes.IsTree t.globalScope := by
    rw [ofProgram_scopes]
    exact h.isTree
  refine ⟨htree, htree.walk_perm, fun outer inner s s' hs hs' hparent => ?_, ?_, fun k r hr => ?_⟩
  · rw [ofProgram_scopes] at hs hs' hparent
    exact h.mayHold_of_parentOf hs hs' hparent
  · have hmap := congrArg (List.map fun x => (x.1, x.2.1)) h.map_regions
    rw [List.map_map, List.map_map] at hmap
    rw [ofProgram_scopes]
    exact hmap
  · rw [ofProgram_scopes, ofProgram_classScopes]
    exact h.childrenOf_region hr

/-- The symbols of every scope are the first of each name among the resolvable
declarations of its region, in source order. -/
theorem symbols_eq_kept (p : Program ε) (name : String) :
    let t := (ofProgram p name).1
    t.scopes.scopes.map (fun s => (s.kind, s.name, s.symbols)) =
      (p.regions name).map fun r =>
        (r.kind, r.name, (kept p.declared r.declarations).map (·.symbol t.types)) := by
  intro t
  rw [ofProgram_scopes, ofProgram_types]
  exact (linked_linkedTo p name (Nat.le_refl p.classes.length)).map_regions

end SymbolTables

end IcFront
