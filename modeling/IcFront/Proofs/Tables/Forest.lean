import IcFront.Proofs.Regions
import IcFront.Proofs.Scopes.Tree
import IcFront.Proofs.Tables.Unlinked

/-!
# The scopes before classes are linked

Before any class is linked the scopes are a forest: the scopes of classes have no
parents yet and that of the program has no children, but below each class all
parents and children agree (`mem_childrenOf_unlinked`), and parents come before
what lies in them (`unlinked_parent_lt`).
-/

namespace IcFront

variable {ε : Type}

open Outline

/-! ## The keys of classes -/

theorem Outline.length_keys (key : Nat) (os : List Outline) : (keys key os).length = os.length := by
  induction os generalizing key with
  | nil => rfl
  | cons o os ih => rw [keys, List.length_cons, List.length_cons, ih]

namespace Program

/-- The keys of the scopes of classes, in the order of declaration. -/
def classKeys (p : Program ε) : List Nat := keys 1 (p.classes.map ClassDecl.outline)

/-- The key of the scope of the class at a position. -/
def classKey (p : Program ε) (i : Nat) : Nat := p.classKeys.getD i 0

theorem length_classKeys (p : Program ε) : p.classKeys.length = p.classes.length := by
  rw [classKeys, length_keys, List.length_map]

theorem getElem?_classKeys (p : Program ε) {i : Nat} (hi : i < p.classes.length) :
    p.classKeys[i]? = some (p.classKey i) := by
  rw [← length_classKeys] at hi
  rw [classKey, List.getD_eq_getElem?_getD, List.getElem?_eq_getElem hi, Option.getD_some]

theorem classKey_mem (p : Program ε) {i : Nat} (hi : i < p.classes.length) :
    p.classKey i ∈ p.classKeys :=
  List.mem_of_getElem? (p.getElem?_classKeys hi)

theorem classKeys_eq_map (p : Program ε) :
    p.classKeys = (List.range p.classes.length).map p.classKey := by
  refine List.ext_getElem (by simp [length_classKeys]) fun i hi hi' => ?_
  have hlt : i < p.classes.length := by rwa [length_classKeys] at hi
  rw [List.getElem_map, List.getElem_range, ← Option.some_inj, ← List.getElem?_eq_getElem hi,
    getElem?_classKeys p hlt]

theorem mem_classKeys (p : Program ε) {k : Nat} :
    k ∈ p.classKeys ↔ ∃ i, i < p.classes.length ∧ p.classKey i = k := by
  simp only [classKeys_eq_map, List.mem_map, List.mem_range]

theorem classKey_pos (p : Program ε) {i : Nat} (hi : i < p.classes.length) : 0 < p.classKey i :=
  (mem_keys (p.classKey_mem hi)).1

theorem classKey_inj (p : Program ε) {i j : Nat} (hi : i < p.classes.length)
    (hj : j < p.classes.length) (h : p.classKey i = p.classKey j) : i = j := by
  have hlen : i < p.classKeys.length := p.length_classKeys.symm ▸ hi
  refine (List.getElem?_inj hlen (nodup_keys 1 (p.classes.map ClassDecl.outline))).mp ?_
  exact (p.getElem?_classKeys hi).trans (h ▸ (p.getElem?_classKeys hj).symm)

theorem zero_notMem_classKeys (p : Program ε) : 0 ∉ p.classKeys := fun h =>
  absurd (mem_keys h).1 (by omega)

/-- The regions of a program with their positions, none of its classes linked. -/
def loose (p : Program ε) (name : String) : List (Region × Nat) :=
  (⟨.global, name, p.classes.map ClassDecl.declaration, none, []⟩, 0) ::
    placed none 1 (p.classes.map ClassDecl.outline)

theorem loose_eq_zipIdx (p : Program ε) (name : String) :
    p.loose name =
      (⟨.global, name, p.classes.map ClassDecl.declaration, none, []⟩ ::
        regionsOf none 1 (p.classes.map ClassDecl.outline)).zipIdx := rfl

variable {p : Program ε} {name : String} {r : Region} {k o : Nat}

theorem loose_unique {r' : Region} (h : (r, k) ∈ p.loose name) (h' : (r', k) ∈ p.loose name) :
    r = r' := by
  rw [loose_eq_zipIdx, List.mk_mem_zipIdx_iff_getElem?] at h h'
  exact Option.some.inj (h.symm.trans h')

theorem outer_of_mem_loose (h : (r, k) ∈ p.loose name) (ho : r.outer = some o) :
    0 < o ∧ o < k := by
  rcases List.mem_cons.mp h with hglobal | hplaced
  · obtain ⟨rfl, _⟩ := Prod.mk.inj hglobal
    exact absurd ho (by simp)
  · obtain ⟨_, _, hnone | ⟨o', ho', hle, hlt⟩⟩ := outer_of_mem_placed _ hplaced
    · exact absurd (ho.symm.trans hnone) (by simp)
    · obtain rfl := Option.some.inj (ho.symm.trans ho')
      exact ⟨hle, hlt⟩

/-- Without outer region are the program and the classes. -/
theorem outer_eq_none_iff (h : (r, k) ∈ p.loose name) :
    r.outer = none ↔ k = 0 ∨ k ∈ p.classKeys := by
  have hkeys : within none (placed none 1 (p.classes.map ClassDecl.outline)) = p.classKeys :=
    within_outer (by simp) _
  rcases List.mem_cons.mp h with hglobal | hplaced
  · obtain ⟨rfl, rfl⟩ := Prod.mk.inj hglobal
    simp
  · obtain ⟨hpos, _⟩ := outer_of_mem_placed _ hplaced
    constructor
    · intro hnone
      exact Or.inr (hkeys ▸ mem_within.mpr ⟨r, hplaced, hnone⟩)
    · intro hor
      rcases hor with rfl | hk
      · exact absurd hpos (by omega)
      · rw [← hkeys] at hk
        obtain ⟨r', hr', hnone⟩ := mem_within.mp hk
        exact loose_unique (List.mem_cons_of_mem _ hr') h ▸ hnone

/-- The regions inside a region are those that name it. -/
theorem mem_inner_iff {c : Nat} :
    (∃ r, (r, k) ∈ p.loose name ∧ c ∈ r.inner) ↔ ∃ r, (r, c) ∈ p.loose name ∧ r.outer = some k := by
  constructor
  · intro hex
    obtain ⟨r, hr, hc⟩ := hex
    rcases List.mem_cons.mp hr with hglobal | hplaced
    · obtain ⟨rfl, _⟩ := Prod.mk.inj hglobal
      exact absurd hc List.not_mem_nil
    · rw [inner_eq_within _ (by simp) hplaced] at hc
      obtain ⟨r', hr', ho⟩ := mem_within.mp hc
      exact ⟨r', List.mem_cons_of_mem _ hr', ho⟩
  · intro hex
    obtain ⟨r', hr', ho⟩ := hex
    have hlt := outer_of_mem_loose hr' ho
    rcases List.mem_cons.mp hr' with hglobal | hplaced
    · obtain ⟨rfl, _⟩ := Prod.mk.inj hglobal
      exact absurd ho (by simp)
    · obtain ⟨_, hsize, _⟩ := outer_of_mem_placed _ hplaced
      -- The position named lies before one in the list, and so has a region itself.
      obtain ⟨r, hr⟩ : ∃ r, (r, k) ∈ placed none 1 (p.classes.map ClassDecl.outline) := by
        refine ⟨_, List.mk_mem_zipIdx_iff_le_and_getElem?_sub.mpr
          ⟨hlt.1, List.getElem?_eq_getElem ?_⟩⟩
        rw [length_regionsOf]
        omega
      refine ⟨r, List.mem_cons_of_mem _ hr, ?_⟩
      rw [inner_eq_within _ (by simp) hr]
      exact mem_within.mpr ⟨r', hplaced, ho⟩

theorem nodup_inner (h : (r, k) ∈ p.loose name) : r.inner.Nodup := by
  rcases List.mem_cons.mp h with hglobal | hplaced
  · obtain ⟨rfl, _⟩ := Prod.mk.inj hglobal
    exact List.nodup_nil
  · rw [inner_eq_within _ (by simp) hplaced, within, placed]
    refine List.Nodup.sublist (List.filter_sublist.map _) ?_
    rw [List.zipIdx_map_snd]
    exact List.nodup_range'

end Program

/-! ## The unlinked scopes -/

namespace SymbolTables

variable (p : Program ε) (name : String)

theorem get?_unlinked {k : Nat} {s : Scope} :
    (unlinked p name).1.scopes.get? k = some s ↔
      ∃ r, (r, k) ∈ p.loose name ∧ r.scope (unlinked p name).1.types p.declared = s := by
  rw [unlinked_scopes, Program.loose_eq_zipIdx, scopesOf, ← List.map_cons, Arena.get?,
    List.getElem?_map, Option.map_eq_some_iff]
  simp only [List.mk_mem_zipIdx_iff_getElem?]

theorem parentOf_unlinked {k o : Nat} :
    (unlinked p name).1.scopes.parentOf k = some o ↔
      ∃ r, (r, k) ∈ p.loose name ∧ r.outer = some o := by
  rw [Arena.parentOf, Option.bind_eq_some_iff]
  constructor
  · intro hex
    obtain ⟨s, hs, ho⟩ := hex
    obtain ⟨r, hr, rfl⟩ := (get?_unlinked p name).mp hs
    exact ⟨r, hr, ho⟩
  · intro hex
    obtain ⟨r, hr, ho⟩ := hex
    exact ⟨_, (get?_unlinked p name).mpr ⟨r, hr, rfl⟩, ho⟩

theorem childrenOf_unlinked {k : Nat} {r : Region} (hr : (r, k) ∈ p.loose name) :
    (unlinked p name).1.scopes.childrenOf k = r.inner := by
  rw [Arena.childrenOf, (get?_unlinked p name).mpr ⟨r, hr, rfl⟩]
  rfl

theorem mem_childrenOf_unlinked (k c : Nat) :
    c ∈ (unlinked p name).1.scopes.childrenOf k ↔
      (unlinked p name).1.scopes.parentOf c = some k := by
  rw [parentOf_unlinked, ← Program.mem_inner_iff]
  constructor
  · intro hc
    cases hs : (unlinked p name).1.scopes.get? k with
    | none => simp [Arena.childrenOf, hs] at hc
    | some s =>
      obtain ⟨r, hr, _⟩ := (get?_unlinked p name).mp hs
      rw [childrenOf_unlinked p name hr] at hc
      exact ⟨r, hr, hc⟩
  · intro hex
    obtain ⟨r, hr, hc⟩ := hex
    rwa [childrenOf_unlinked p name hr]

theorem nodup_childrenOf_unlinked (k : Nat) :
    ((unlinked p name).1.scopes.childrenOf k).Nodup := by
  cases hs : (unlinked p name).1.scopes.get? k with
  | none => simp [Arena.childrenOf, hs]
  | some s =>
    obtain ⟨r, hr, _⟩ := (get?_unlinked p name).mp hs
    rw [childrenOf_unlinked p name hr]
    exact Program.nodup_inner hr

theorem unlinked_parent_lt {k o : Nat} (h : (unlinked p name).1.scopes.parentOf k = some o) :
    0 < o ∧ o < k := by
  obtain ⟨r, hr, ho⟩ := (parentOf_unlinked p name).mp h
  exact Program.outer_of_mem_loose hr ho

/-- Without parents are the scopes of the program and the classes. -/
theorem parentOf_unlinked_eq_none {k : Nat} (hk : k < (unlinked p name).1.scopes.size) :
    (unlinked p name).1.scopes.parentOf k = none ↔ k = 0 ∨ k ∈ p.classKeys := by
  obtain ⟨s, hs⟩ := Arena.get?_eq_some hk
  obtain ⟨r, hr, rfl⟩ := (get?_unlinked p name).mp hs
  rw [Arena.parentOf, hs, Option.bind_some, ← Program.outer_eq_none_iff hr]
  exact Iff.rfl

theorem size_unlinked :
    (unlinked p name).1.scopes.size = sizes (p.classes.map ClassDecl.outline) + 1 := by
  rw [unlinked_scopes, Arena.size, List.length_cons, length_scopesOf]

theorem classKey_lt_size {i : Nat} (hi : i < p.classes.length) :
    p.classKey i < (unlinked p name).1.scopes.size := by
  rw [size_unlinked]
  have := mem_keys (p.classKey_mem hi)
  omega

theorem parentOf_unlinked_classKey {i : Nat} (hi : i < p.classes.length) :
    (unlinked p name).1.scopes.parentOf (p.classKey i) = none :=
  (parentOf_unlinked_eq_none p name (classKey_lt_size p name hi)).mpr (Or.inr (p.classKey_mem hi))

end SymbolTables

end IcFront
