import IcFront.Proofs.Reordering
import IcFront.Proofs.Tables.Described
import IcFront.Proofs.Tables.Reports
import Mathlib.Data.List.Forall2

/-!
# Tables of classes in another order

The order of classes shows in the keys of scopes and the ids of types, in the order of
what is reported, and in the order of the symbols of the global scope. Apart from that
the tables of two `Reordered` programs are the same (`ofProgram_reordered`).

Symbols are compared by their descriptions, which the program alone determines
(`scope_of_counterparts`). Parents are compared by `Counterparts`: inside a class they lie
in the class, and a class lies below the same class in both orders
(`counterparts_parentOf`). Since names are searched along parents, they find the same
(`resolve_of_counterparts`).
-/

namespace IcFront

variable {ε : Type}

/-! ## Searching along related lists -/

theorem findSome?_rel {α β γ δ : Type} {R : α → β → Prop} {S : γ → δ → Prop}
    {f : α → Option γ} {g : β → Option δ} (hfg : ∀ x y, R x y → Option.Rel S (f x) (g y))
    {xs : List α} {ys : List β} (h : List.Forall₂ R xs ys) :
    Option.Rel S (xs.findSome? f) (ys.findSome? g) := by
  induction h with
  | nil => exact .none
  | @cons x y xs ys hxy _ ih =>
    rw [List.findSome?_cons, List.findSome?_cons]
    have hstep := hfg x y hxy
    generalize f x = u at hstep ⊢
    generalize g y = v at hstep ⊢
    cases hstep with
    | none => exact ih
    | some huv => exact .some huv

/-- What related things are made into is the same, if it is of any that are related. -/
theorem map_eq_of_rel {α β γ : Type} {R : α → β → Prop} {f : α → γ} {g : β → γ}
    (hfg : ∀ x y, R x y → g y = f x) {x : Option α} {y : Option β} (h : Option.Rel R x y) :
    y.map g = x.map f := by
  cases h with
  | none => rfl
  | some hxy => exact congrArg some (hfg _ _ hxy)

/-- Ways along related parents are related. -/
theorem Arena.forall₂_ancestorsWithin {a b : Arena} {R : Nat → Nat → Prop}
    (hparent : ∀ k l, R k l → Option.Rel R (a.parentOf k) (b.parentOf l)) (depth : Nat)
    {k l : Nat} (h : R k l) :
    List.Forall₂ R (a.ancestorsWithin depth k) (b.ancestorsWithin depth l) := by
  induction depth generalizing k l with
  | zero => exact .nil
  | succ depth ih =>
    rw [ancestorsWithin, ancestorsWithin]
    have hstep := hparent k l h
    generalize a.parentOf k = u at hstep ⊢
    generalize b.parentOf l = v at hstep ⊢
    cases hstep with
    | none => exact .nil
    | some huv => exact .cons huv (ih huv)

/-! ## The same tables -/

namespace SymbolTables

/-- Tables that are the same but for ids: of types, for which their descriptions stand,
and of scopes, which a relation matches. -/
structure SameButForIds (R : Nat → Nat → Prop) (t t' : SymbolTables) : Prop where
  diagnostics : t'.diagnostics.Perm t.diagnostics
  superclass? : ∀ className, t'.superclass? className = t.superclass? className
  /-- Every scope is matched with exactly one of the other tables. -/
  globalScope : R t.globalScope t'.globalScope
  existsUnique : ∀ k, k < t.scopes.size → ∃! l, R k l
  existsUnique' : ∀ l, l < t'.scopes.size → ∃! k, R k l
  /-- Scopes matched have the same kind and name, and the same symbols in the same order;
  the symbols of the global scope are those classes in any order. -/
  scope : ∀ k l, R k l → ∃ s s', t.scopes.get? k = some s ∧ t'.scopes.get? l = some s' ∧
    s'.kind = s.kind ∧ s'.name = s.name ∧
    (s'.symbols.map t'.described).Perm (s.symbols.map t.described) ∧
    (s.kind ≠ .global → s'.symbols.map t'.described = s.symbols.map t.described)
  /-- Their parents are matched, and so have the same name. -/
  parent : ∀ k l, R k l → Option.Rel R (t.scopes.parentOf k) (t'.scopes.parentOf l)
  parentName : ∀ k l, R k l →
    (t'.scopes.parentOf l).map t'.scopes.nameOf = (t.scopes.parentOf k).map t.scopes.nameOf
  /-- A name finds the same symbol from scopes matched, in scopes matched, or nothing from
  either. -/
  resolve : ∀ k l, R k l → ∀ n,
    Option.Rel (fun x y => R x.1 y.1 ∧ t'.described y.2 = t.described x.2)
      (t.scopes.resolve k n) (t'.scopes.resolve l n)
  lookup : ∀ k l, R k l → ∀ n,
    (t'.scopes.lookup l n).map t'.described = (t.scopes.lookup k n).map t.described

/-! ## Scopes that stand for each other -/

theorem lookupLocal_described {t : SymbolTables} {k : Nat} {s : Scope}
    (hs : t.scopes.get? k = some s) (n : String) :
    (t.scopes.lookupLocal k n).map t.described =
      (s.symbols.map t.described).find? (·.name == n) := by
  rw [Arena.lookupLocal, hs, Option.bind_some, Scope.lookup, List.find?_map]
  rfl

/-- The symbols of the global scope are the classes, if their names are distinct. -/
theorem global_described {p : Program ε} (hdistinct : p.declared.Nodup) (name : String) :
    ∃ s, (ofProgram p name).1.scopes.get? 0 = some s ∧ s.kind = .global ∧ s.name = name ∧
      s.symbols.map (ofProgram p name).1.described =
        p.classes.map fun c => c.declaration.described := by
  obtain ⟨s, hs, hkind, hname, hsymbols⟩ :=
    described_symbols p name (List.mem_cons_self : (_, 0) ∈ p.loose name)
  rw [Program.kept_classes hdistinct, List.map_map] at hsymbols
  exact ⟨s, hs, hkind, hname, hsymbols⟩

section Counterparts

open Program

variable {p p' : Program ε} (h : p.Reordered p') (name : String) {k l : Nat}
include h

/-- Within a class, scopes that stand for each other hold the same. -/
theorem scope_of_moved {i j : Nat} {r : Region} (hk : (r.moved i, k) ∈ p.loose name)
    (hl : (r.moved j, l) ∈ p'.loose name) :
    ∃ s s', (ofProgram p name).1.scopes.get? k = some s ∧
      (ofProgram p' name).1.scopes.get? l = some s' ∧ s'.kind = s.kind ∧ s'.name = s.name ∧
      s'.symbols.map (ofProgram p' name).1.described =
        s.symbols.map (ofProgram p name).1.described := by
  obtain ⟨s, hs, hkind, hname, hsymbols⟩ := described_symbols p name hk
  obtain ⟨s', hs', hkind', hname', hsymbols'⟩ := described_symbols p' name hl
  refine ⟨s, s', hs, hs', hkind'.trans hkind.symm, hname'.trans hname.symm, ?_⟩
  rw [hsymbols, hsymbols', kept_congr h.contains_eq]
  rfl

theorem scope_of_counterparts (hkl : p.Counterparts p' k l) :
    ∃ s s', (ofProgram p name).1.scopes.get? k = some s ∧
      (ofProgram p' name).1.scopes.get? l = some s' ∧ s'.kind = s.kind ∧ s'.name = s.name ∧
      (s'.symbols.map (ofProgram p' name).1.described).Perm
        (s.symbols.map (ofProgram p name).1.described) ∧
      (s.kind ≠ .global → s'.symbols.map (ofProgram p' name).1.described =
        s.symbols.map (ofProgram p name).1.described) := by
  rcases hkl.regions with ⟨rfl, rfl⟩ | ⟨i, j, r, hk, hl⟩
  · obtain ⟨s, hs, hkind, hname, hsymbols⟩ := global_described h.distinct name
    obtain ⟨s', hs', hkind', hname', hsymbols'⟩ := global_described h.distinct' name
    refine ⟨s, s', hs, hs', hkind'.trans hkind.symm, hname'.trans hname.symm, ?_,
      fun hne => absurd hkind hne⟩
    rw [hsymbols, hsymbols']
    exact h.perm.map _
  · obtain ⟨s, s', hs, hs', hkind, hname, hsymbols⟩ := scope_of_moved h name hk hl
    exact ⟨s, s', hs, hs', hkind, hname, hsymbols ▸ .refl _, fun _ => hsymbols⟩

/-- In scopes that stand for each other a name is declared in the same way. -/
theorem lookupLocal_of_counterparts (hkl : p.Counterparts p' k l) (n : String) :
    ((ofProgram p' name).1.scopes.lookupLocal l n).map (ofProgram p' name).1.described =
      ((ofProgram p name).1.scopes.lookupLocal k n).map (ofProgram p name).1.described := by
  rcases hkl.regions with ⟨rfl, rfl⟩ | ⟨i, j, r, hk, hl⟩
  · obtain ⟨s, hs, -, -, hsymbols⟩ := global_described h.distinct name
    obtain ⟨s', hs', -, -, hsymbols'⟩ := global_described h.distinct' name
    rw [lookupLocal_described hs, lookupLocal_described hs', hsymbols, hsymbols']
    refine find?_perm (h.perm.map _) ?_ n
    rw [List.map_map]
    exact h.distinct
  · obtain ⟨s, s', hs, hs', -, -, hsymbols⟩ := scope_of_moved h name hk hl
    rw [lookupLocal_described hs, lookupLocal_described hs', hsymbols]

/-- A class is placed below the same class in both orders, or below the global scope. -/
theorem counterparts_parentKey {i j : Nat} {c : ClassDecl ε} (hi : p.classes[i]? = some c)
    (hj : p'.classes[j]? = some c) :
    p.Counterparts p' (p.parentKey i) (p'.parentKey j) := by
  have hacc := accepted_of_acyclic h.acyclic i
  have hacc' := accepted_of_acyclic h.acyclic' j
  have hglobal : accepted p.superclass? i = none → accepted p'.superclass? j = none →
      p.Counterparts p' (p.parentKey i) (p'.parentKey j) := by
    intro hnone hnone'
    rw [parentKey_of_not_accepted hnone, parentKey_of_not_accepted hnone']
    exact Or.inl ⟨rfl, rfl⟩
  cases hs : c.superclass with
  | none =>
    refine hglobal (hacc.trans ?_) (hacc'.trans ?_)
    · rw [Program.superclass?, hi, Option.bind_some, hs, Option.bind_none]
    · rw [Program.superclass?, hj, Option.bind_some, hs, Option.bind_none]
  | some superclass =>
    rw [superclass?_eq hi hs] at hacc
    rw [superclass?_eq hj hs] at hacc'
    rcases h.denoted?_both superclass with ⟨hx, hy⟩ | ⟨x, y, c', hx, hy, hxc, hyc, -⟩
    · exact hglobal (hacc.trans hx) (hacc'.trans hy)
    · rw [parentKey_of_accepted (hacc.trans hx), parentKey_of_accepted (hacc'.trans hy)]
      exact counterparts_classKey hxc hyc

/-- Scopes that stand for each other have parents that do. -/
theorem counterparts_parentOf (hkl : p.Counterparts p' k l) :
    Option.Rel (p.Counterparts p') ((ofProgram p name).1.scopes.parentOf k)
      ((ofProgram p' name).1.scopes.parentOf l) := by
  rcases hkl with ⟨rfl, rfl⟩ | ⟨i, j, off, c, hi, hj, hoff, rfl, rfl⟩
  · rw [parentOf_of_notMem p name List.mem_cons_self p.zero_notMem_classKeys,
      parentOf_of_notMem p' name List.mem_cons_self p'.zero_notMem_classKeys]
    exact .none
  · rcases Nat.eq_zero_or_pos off with rfl | hpos
    · have hi' := (List.getElem?_eq_some_iff.mp hi).1
      have hj' := (List.getElem?_eq_some_iff.mp hj).1
      rw [Nat.add_zero, Nat.add_zero, parentOf_classKey p name hi', parentOf_classKey p' name hj']
      exact .some (counterparts_parentKey h hi hj)
    · -- Inside a class the parent lies in the class as well, at the same place.
      obtain ⟨r, hr⟩ := getElem?_regions_of_lt hoff
      have hk : (r.moved (p.classKey i), p.classKey i + off) ∈ p.loose name :=
        mem_loose_iff.mpr (Or.inr ⟨i, c, off, r, hi, hr, rfl, rfl⟩)
      have hl : (r.moved (p'.classKey j), p'.classKey j + off) ∈ p'.loose name :=
        mem_loose_iff.mpr (Or.inr ⟨j, c, off, r, hj, hr, rfl, rfl⟩)
      rw [parentOf_of_notMem p name hk (classKey_add_notMem hi hpos hoff),
        parentOf_of_notMem p' name hl (classKey_add_notMem hj hpos hoff)]
      rcases Outline.outer_of_getElem? hr with hnone | ⟨x, hx, hlt⟩
      · rw [Region.moved, Region.moved, hnone]
        exact .none
      · rw [Region.moved, Region.moved, hx]
        exact .some (Or.inr ⟨i, j, x, c, hi, hj, hlt.trans hoff, Nat.add_comm _ _,
          Nat.add_comm _ _⟩)

/-- A name finds the same from scopes that stand for each other, or nothing from either. -/
theorem resolve_of_counterparts (hkl : p.Counterparts p' k l) (n : String) :
    Option.Rel (fun x y => p.Counterparts p' x.1 y.1 ∧
        (ofProgram p' name).1.described y.2 = (ofProgram p name).1.described x.2)
      ((ofProgram p name).1.scopes.resolve k n) ((ofProgram p' name).1.scopes.resolve l n) := by
  have hsize : (ofProgram p' name).1.scopes.size = (ofProgram p name).1.scopes.size := by
    rw [size_ofProgram, size_ofProgram, Outline.sizes_perm (h.perm.map _)]
  have haround := Arena.forall₂_ancestorsWithin (fun _ _ => counterparts_parentOf h name)
    (ofProgram p name).1.scopes.size hkl
  rw [Arena.resolve, Arena.resolve, Arena.ancestors, Arena.ancestors, hsize]
  refine findSome?_rel (fun x y hxy => ?_) (.cons hkl haround)
  have hlocal := lookupLocal_of_counterparts h name hxy n
  cases hx : (ofProgram p name).1.scopes.lookupLocal x n with
  | none =>
    rw [hx, Option.map_none, Option.map_eq_none_iff] at hlocal
    rw [hlocal]
    exact .none
  | some s =>
    rw [hx, Option.map_some] at hlocal
    obtain ⟨s', hs', hsame⟩ := Option.map_eq_some_iff.mp hlocal
    rw [hs']
    exact .some ⟨hxy, hsame⟩

/-! ## Superclasses and diagnostics -/

theorem superclass?_reordered (className : String) :
    (ofProgram p' name).1.superclass? className = (ofProgram p name).1.superclass? className := by
  rcases h.denoted?_both className with ⟨hx, hy⟩ | ⟨i, j, c, hx, hy, hi, hj, -⟩
  · rw [superclass?_of_not_denoted p name hx, superclass?_of_not_denoted p' name hy]
  · rw [superclass?_of_denoted p name hx, superclass?_of_denoted p' name hy,
      accepted_of_acyclic h.acyclic, accepted_of_acyclic h.acyclic']
    cases hs : c.superclass with
    | none =>
      simp only [Program.superclass?, hi, hj, hs, Option.bind_some, Option.bind_none,
        Option.map_none]
    | some superclass =>
      rw [superclass?_eq hi hs, superclass?_eq hj hs]
      rcases h.denoted?_both superclass with ⟨hx', hy'⟩ | ⟨x, y, c', hx', hy', hxc, hyc, -⟩
      · rw [hx', hy', Option.map_none, Option.map_none]
      · rw [hx', hy', Option.map_some, Option.map_some, describe_classId p name hxc,
          describe_classId p' name hyc]

theorem diagnostics_perm :
    ((ofProgram p' name).1.diagnostics).Perm (ofProgram p name).1.diagnostics := by
  rw [ofProgram_diagnostics, ofProgram_diagnostics,
    (linked_linkedTo p name (Nat.le_refl _)).diagnostics_eq,
    (linked_linkedTo p' name (Nat.le_refl _)).diagnostics_eq]
  exact (h.rejections_perm name).append h.linkFaults_perm

theorem existsUnique_counterpart (hk : k < (ofProgram p name).1.scopes.size) :
    ∃! l, p.Counterparts p' k l := by
  obtain ⟨r, hr⟩ := exists_loose p name hk
  obtain ⟨l, hl⟩ := h.exists_counterpart hr
  exact ⟨l, hl, fun _ hl' => h.counterpart_unique hl' hl⟩

end Counterparts

/-- The order in which classes are declared does not matter. -/
theorem ofProgram_reordered {p p' : Program ε} (h : p.Reordered p') (name : String) :
    SameButForIds (p.Counterparts p') (ofProgram p name).1 (ofProgram p' name).1 where
  diagnostics := diagnostics_perm h name
  superclass? := superclass?_reordered h name
  globalScope := Or.inl ⟨rfl, rfl⟩
  existsUnique k hk := existsUnique_counterpart h name hk
  existsUnique' l hl := by
    obtain ⟨k, hk, hunique⟩ := existsUnique_counterpart h.symm name hl
    exact ⟨k, hk.symm, fun k' hk' => hunique k' hk'.symm⟩
  scope k l hkl := scope_of_counterparts h name hkl
  parent k l hkl := counterparts_parentOf h name hkl
  parentName k l hkl := by
    refine map_eq_of_rel (fun x y hxy => ?_) (counterparts_parentOf h name hkl)
    obtain ⟨s, s', hs, hs', -, hname, -⟩ := scope_of_counterparts h name hxy
    simp only [Arena.nameOf, hs, hs', hname]
  resolve k l hkl n := resolve_of_counterparts h name hkl n
  lookup k l hkl n := by
    rw [Arena.lookup, Arena.lookup, Option.map_map, Option.map_map]
    exact map_eq_of_rel (fun _ _ hxy => hxy.2) (resolve_of_counterparts h name hkl n)

/-- A class before the class that it extends, and after it. -/
theorem ofProgram_reordered_forward :
    let a : ClassDecl Expr :=
      { name := "A", superclass := some "Missing", fields := [], methods := [], line := 1 }
    let b : ClassDecl Expr :=
      { name := "B", superclass := some "A"
        fields := [⟨⟨.user "A", 1, 3⟩, "x", 3⟩, ⟨⟨.user "Missing", 0, 4⟩, "y", 4⟩]
        methods := [⟨.static [.block [] 6 none], ⟨.primitive .void, 0, 5⟩, "m",
          [⟨⟨.user "B", 0, 5⟩, "b", 5, none⟩], 5, none⟩]
        line := 2 }
    let p : Program Expr := { classes := [a, b] }
    let p' : Program Expr := { classes := [b, a] }
    p.Reordered p' ∧
      SameButForIds (p.Counterparts p') (ofProgram p "ab.ic").1 (ofProgram p' "ab.ic").1 := by
  intro a b p p'
  have hlt : ∀ x y, p.superclass? x = some y → y < x := by
    intro x y hxy
    match x with
    | 0 =>
      have hzero : p.superclass? 0 = none := by decide
      exact absurd (hzero.symm.trans hxy) (by simp)
    | 1 =>
      have hone : p.superclass? 1 = some 0 := by decide
      obtain rfl := Option.some.inj (hone.symm.trans hxy)
      exact Nat.one_pos
    | x + 2 => exact absurd hxy (by simp [p, Program.superclass?])
  have h : p.Reordered p' := ⟨List.Perm.swap a b [], by decide, acyclic_of_lt hlt⟩
  exact ⟨h, ofProgram_reordered h "ab.ic"⟩

end SymbolTables

end IcFront
