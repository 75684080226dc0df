import IcFront.Proofs.Scopes.Checked
import IcFront.Proofs.Types.Growth

/-!
# The layout of regions in an arena

The scope that a region asks for (`Region.scope`) keeps the region's declarations,
has the scopes of the regions directly inside it as children, and the scope of
the region around it as parent. The scopes of an outline stand in document order,
so that the position of a region is the key of its scope.

While the body of a method is worked on, the scopes in it have no parents yet
(`Scope.orphan`). `linkBelow_regions` says that linking below the method gives
each of them the parent that its region asks for; `linkChecked_regions` adds that
it comes to an end and misses no scope.
-/

namespace IcFront

variable {T : TypeTable} {declared : List String}

/-- The scope that a region asks for, the types of its symbols by their ids in a
table. -/
def Region.scope (T : TypeTable) (declared : List String) (r : Region) : Scope where
  kind := r.kind
  name := r.name
  symbols := (kept declared r.declarations).map (·.symbol T)
  children := r.inner
  parent := r.outer

/-- A scope without its parent. -/
def Scope.orphan (s : Scope) : Scope := { s with parent := none }

namespace Outline

/-- The scopes of outlines that lie side by side. -/
def scopesOf (T : TypeTable) (declared : List String) (outer : Option Nat) (key : Nat)
    (os : List Outline) : List Scope :=
  (regionsOf outer key os).map (·.scope T declared)

/-- The scopes of outlines before they are linked. -/
def orphans (T : TypeTable) (declared : List String) (key : Nat) (os : List Outline) : List Scope :=
  (scopesOf T declared none key os).map Scope.orphan

@[simp] theorem length_scopesOf (outer : Option Nat) (key : Nat) (os : List Outline) :
    (scopesOf T declared outer key os).length = sizes os := by
  rw [scopesOf, List.length_map, length_regionsOf]

@[simp] theorem length_orphans (key : Nat) (os : List Outline) :
    (orphans T declared key os).length = sizes os := by
  rw [orphans, List.length_map, length_scopesOf]

@[simp] theorem scopesOf_nil (outer : Option Nat) (key : Nat) :
    scopesOf T declared outer key [] = [] := rfl

@[simp] theorem orphans_nil (key : Nat) : orphans T declared key [] = [] := rfl

theorem scopesOf_append (outer : Option Nat) (key : Nat) (os os' : List Outline) :
    scopesOf T declared outer key (os ++ os') =
      scopesOf T declared outer key os ++ scopesOf T declared outer (key + sizes os) os' := by
  rw [scopesOf, regionsOf_append, List.map_append, scopesOf, scopesOf]

theorem scopesOf_cons (outer : Option Nat) (key : Nat) (o : Outline) (os : List Outline) :
    scopesOf T declared outer key (o :: os) =
      scopesOf T declared outer key [o] ++ scopesOf T declared outer (key + o.size) os := by
  rw [← List.singleton_append, scopesOf_append, sizes, sizes, Nat.add_zero]

@[simp] theorem length_scopesOf_singleton (outer : Option Nat) (key : Nat) (o : Outline) :
    (scopesOf T declared outer key [o]).length = o.size := by
  rw [length_scopesOf, sizes, sizes, Nat.add_zero]

theorem orphans_append (key : Nat) (os os' : List Outline) :
    orphans T declared key (os ++ os') =
      orphans T declared key os ++ orphans T declared (key + sizes os) os' := by
  rw [orphans, scopesOf_append, List.map_append, orphans, orphans]

/-- The scope of the outermost region of an outline comes first. -/
theorem scopesOf_region_cons (outer : Option Nat) (key : Nat) (kind : ScopeKind) (name : String)
    (xs : List Declaration) (inner os : List Outline) :
    scopesOf T declared outer key (.region kind name xs inner :: os) =
      Region.scope T declared ⟨kind, name, xs, outer, keys (key + 1) inner⟩ ::
        (scopesOf T declared (some key) (key + 1) inner ++
          scopesOf T declared outer (key + (sizes inner + 1)) os) := by
  rw [scopesOf, regionsOf, regions, size, List.cons_append, List.map_cons, List.map_append,
    scopesOf, scopesOf]

/-- Without parents it does not matter what lies around. -/
theorem orphans_eq (outer : Option Nat) (key : Nat) (os : List Outline) :
    (scopesOf T declared outer key os).map Scope.orphan = orphans T declared key os := by
  have horphan : Scope.orphan ∘ Region.scope T declared = Region.scope T declared ∘ Region.apart :=
    rfl
  rw [orphans, scopesOf, scopesOf, List.map_map, List.map_map, horphan, ← List.map_map,
    ← List.map_map, regionsOf_apart]

theorem orphans_region_cons (key : Nat) (kind : ScopeKind) (name : String)
    (xs : List Declaration) (inner os : List Outline) :
    orphans T declared key (.region kind name xs inner :: os) =
      Region.scope T declared ⟨kind, name, xs, none, keys (key + 1) inner⟩ ::
        (orphans T declared (key + 1) inner ++
          orphans T declared (key + (sizes inner + 1)) os) := by
  rw [← orphans_eq (some key) (key + 1) inner, orphans, scopesOf_region_cons, List.map_cons,
    List.map_append, orphans]
  rfl

end Outline

namespace Arena

open Outline

/-- Linking the children of a scope one after the other links all regions of
their outlines, whatever else the arena holds. -/
theorem foldlM_linkChecked (T : TypeTable) (declared : List String) (depth : Nat) (a : Arena)
    (root : Nat) (post : List Scope) :
    ∀ os : List Outline, sizes os ≤ depth → root < a.size →
      (keys a.size os).foldlM (fun b child => linkChecked depth (b.setParent child root) child)
          (a.extend (orphans T declared a.size os ++ post)) =
        .ok (a.extend (scopesOf T declared (some root) a.size os ++ post))
  | [], _, _ => rfl
  | .region kind name xs inner :: os, hdepth, hroot => by
    simp only [sizes, Outline.size] at hdepth
    obtain ⟨d, rfl⟩ : ∃ d, depth = d + 1 := ⟨depth - 1, by omega⟩
    -- The region's own scope, once it has its parent.
    let s := Region.scope T declared ⟨kind, name, xs, some root, keys (a.size + 1) inner⟩
    have hone : (a.extend [s]).size = a.size + 1 := size_extend a [s]
    have hparent :
        (a.extend (orphans T declared a.size (.region kind name xs inner :: os) ++ post)).setParent
            a.size root =
          (a.extend [s]).extend (orphans T declared (a.size + 1) inner ++
            (orphans T declared (a.size + (sizes inner + 1)) os ++ post)) := by
      rw [orphans_region_cons, setParent_eq, List.cons_append, modify_extend_size, extend_extend,
        List.append_assoc]
      rfl
    have hscope : ((a.extend [s]).extend (orphans T declared (a.size + 1) inner ++
          (orphans T declared (a.size + (sizes inner + 1)) os ++ post))).get? a.size = some s := by
      rw [extend_extend, List.singleton_append, get?_extend_size]
    have hbelow := foldlM_linkChecked T declared d (a.extend [s]) a.size
      (orphans T declared (a.size + (sizes inner + 1)) os ++ post) inner (by omega) (by omega)
    have hrest := foldlM_linkChecked T declared (d + 1)
      (a.extend (s :: scopesOf T declared (some a.size) (a.size + 1) inner)) root post os
      (by omega) (by rw [size_extend]; omega)
    have hsize : (a.extend (s :: scopesOf T declared (some a.size) (a.size + 1) inner)).size =
        a.size + (sizes inner + 1) := by
      rw [size_extend, List.length_cons, length_scopesOf]
    rw [hone] at hbelow
    rw [hsize, extend_extend, extend_extend] at hrest
    rw [keys, List.foldlM_cons, hparent, linkChecked, hscope]
    refine (congrArg (· >>= _) hbelow).trans ?_
    rw [extend_extend, Outline.size, scopesOf_region_cons]
    simp only [List.cons_append, List.nil_append, List.append_assoc] at hrest ⊢
    exact hrest
  termination_by os => sizes os
  decreasing_by all_goals simp only [sizes, Outline.size]; omega

/-- Linking below the last but for the regions inside it links those regions, and has
nothing to complain about. -/
theorem linkChecked_regions (a : Arena) (s : Scope) (inner : List Outline)
    (hs : s.children = keys (a.size + 1) inner) :
    let b := a.extend (s :: orphans T declared (a.size + 1) inner)
    linkChecked b.size b a.size =
      .ok (a.extend (s :: scopesOf T declared (some a.size) (a.size + 1) inner)) := by
  intro b
  have hsize : b.size = a.size + sizes inner + 1 := by
    rw [size_extend, List.length_cons, length_orphans]; omega
  have hroot : (a.extend [s]).size = a.size + 1 := size_extend a [s]
  have h := foldlM_linkChecked T declared (a.size + sizes inner) (a.extend [s]) a.size [] inner
    (by omega) (by omega)
  rw [hsize, linkChecked, get?_extend_size]
  dsimp only
  rw [hs]
  rw [hroot, List.append_nil, List.append_nil, extend_extend, extend_extend] at h
  exact h

theorem linkBelow_regions (a : Arena) (s : Scope) (inner : List Outline)
    (hs : s.children = keys (a.size + 1) inner) :
    (a.extend (s :: orphans T declared (a.size + 1) inner)).linkBelow a.size =
      a.extend (s :: scopesOf T declared (some a.size) (a.size + 1) inner) :=
  linkWithin_of_linkChecked (linkChecked_regions a s inner hs)

end Arena

end IcFront
