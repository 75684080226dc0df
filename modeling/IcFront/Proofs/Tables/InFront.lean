import IcFront.Compilation
import IcFront.Proofs.InFront
import IcFront.Proofs.Library
import IcFront.Proofs.Tables.Described
import IcFront.Proofs.Tables.Reports
import IcFront.Proofs.Tables.ScopeTree

/-!
# Tables with a library in front

A program that does not use the library has the same tables with the library as without
it (`ofProgram_withLibrary`), but for keys and ids. `RoomFor` says what that means: all
that there was is there, the scopes with their keys greater by the number of scopes of
the class in front, the classes with their ids greater by one.

The ids of other types do not move evenly, since the class in front may ask for some of
them first. So symbols are compared by what describes their types, which the program
alone determines (`described_symbols`). What a region keeps does not change with the
class in front (`Program.Avoids.kept_eq`).
-/

namespace IcFront

variable {ε : Type}

namespace TypeTable

/-- The ids of the classes of a table that has them one after the other. -/
theorem idsOf_class {t : TypeTable} {before more : List TypeEntry} {classNames : List String}
    (hentries : t.entries = before ++ (classNames.map .class_ ++ more))
    (hbefore : ∀ e ∈ before, e.kind ≠ .class_) (hmore : ∀ e ∈ more, e.kind ≠ .class_) :
    t.idsOf .class_ = (List.range classNames.length).map fun i : Nat =>
      ((before.length + i : Nat) : TypeId) + 1 := by
  have hnone : ∀ (es : List TypeEntry) (n : Nat), (∀ e ∈ es, e.kind ≠ .class_) →
      ((es.zipIdx n).filter fun x => x.1.kind == .class_) = [] := by
    intro es n hes
    rw [List.filter_eq_nil_iff]
    intro x hx hclass
    exact hes x.1 (List.fst_mem_of_mem_zipIdx hx) (eq_of_beq hclass)
  have hall : ∀ n, (((classNames.map TypeEntry.class_).zipIdx n).filter fun x =>
      x.1.kind == .class_) = (classNames.map TypeEntry.class_).zipIdx n := by
    intro n
    rw [List.filter_eq_self]
    intro x hx
    obtain ⟨className, -, hname⟩ := List.mem_map.mp (List.fst_mem_of_mem_zipIdx hx)
    rw [← hname]
    rfl
  have hids : ∀ es : List (TypeEntry × Nat), (es.map fun x => (x.2 : TypeId) + 1) =
      (es.map Prod.snd).map fun i : Nat => (i : TypeId) + 1 := by
    intro es
    rw [List.map_map]
    rfl
  -- Of the three parts of the table only the one in the middle counts.
  show (t.entries.zipIdx.filter fun x => x.1.kind == .class_).map (fun x => (x.2 : TypeId) + 1) = _
  rw [hentries, List.zipIdx_append, List.zipIdx_append, List.filter_append, List.filter_append,
    hnone before 0 hbefore, hall, hnone more _ hmore, List.nil_append, List.append_nil, hids,
    List.zipIdx_map_snd, List.length_map, List.range'_eq_map_range, List.map_map, Nat.zero_add]
  rfl

end TypeTable

namespace Arena

theorem children_eq {a : Arena} {k : Nat} {s : Scope} (hs : a.get? k = some s) :
    s.children = a.childrenOf k := by
  rw [childrenOf, hs]

theorem parent_eq {a : Arena} {k : Nat} {s : Scope} (hs : a.get? k = some s) :
    s.parent = a.parentOf k := by
  rw [parentOf, hs, Option.bind_some]

end Arena

namespace SymbolTables

/-! ## Finished tables, read off the program -/

section Finished

variable (p : Program ε) (name : String)

/-- The ids of classes are those that come after the primitive types. -/
theorem classIds_ofProgram :
    (ofProgram p name).1.types.idsOf .class_ = (List.range p.classes.length).map classId := by
  obtain ⟨more, hentries, hkind⟩ := entries_ofProgram p name
  have hprims : ∀ e ∈ PrimitiveKind.all.map TypeEntry.primitive, e.kind ≠ .class_ := by
    intro e he
    obtain ⟨kind, -, rfl⟩ := List.mem_map.mp he
    simp [TypeEntry.kind]
  have hlength : p.declared.length = p.classes.length := List.length_map _
  rw [TypeTable.idsOf_class hentries hprims hkind, hlength]
  refine List.map_congr_left fun i _ => ?_
  show ((5 + i : Nat) : Int) + 1 = (i : Int) + 6
  omega

/-- The ids of a class and of its superclass, if that is accepted. -/
def edge? (p : Program ε) (i : Nat) : Option (TypeId × TypeId) :=
  (accepted p.superclass? i).map fun j => (classId i, classId j)

/-- The superclasses are entered one by one, as the classes are linked. -/
theorem superclasses_linkedTo {i : Nat} (hi : i ≤ p.classes.length) :
    (linkedTo p name i).types.superclasses = ((List.range i).filterMap (edge? p)).reverse := by
  induction i with
  | zero => exact unlinked_superclasses p name
  | succ i ih =>
    have hc := List.getElem?_eq_getElem (Nat.lt_of_succ_le hi)
    obtain ⟨s, hs, -⟩ := unlinked_class p name hc
    have hle := Nat.le_of_succ_le hi
    rw [linkedTo_succ p name hs, ((linked_linkedTo p name hle).place_eq hc hs).2.1,
      List.range_succ, List.filterMap_append, List.reverse_append, ← ih hle]
    -- The newest edge comes first.
    show (edge? p i).toList ++ _ = _
    cases hedge : edge? p i with
    | none => rw [List.filterMap_cons_none hedge]; rfl
    | some e => rw [List.filterMap_cons_some hedge]; rfl

theorem childrenOf_ofProgram {r : Region} {k : Nat} (hr : (r, k) ∈ p.loose name) :
    (ofProgram p name).1.scopes.childrenOf k = r.inner ++ p.placedUnder p.classes.length k := by
  rw [ofProgram_scopes, (linked_linkedTo p name (Nat.le_refl _)).childrenOf,
    childrenOf_unlinked p name hr]

/-- The global scope is no child. -/
theorem pos_of_mem_childrenOf {k x : Nat} (hx : x ∈ (ofProgram p name).1.scopes.childrenOf k) :
    0 < x := by
  have h := linked_linkedTo p name (Nat.le_refl p.classes.length)
  rw [ofProgram_scopes, h.mem_childrenOf] at hx
  by_contra hzero
  obtain rfl : x = 0 := Nat.eq_zero_of_not_pos hzero
  rw [h.parentOf_zero] at hx
  cases hx

theorem map_makeRoom_childrenOf (m k : Nat) :
    ((ofProgram p name).1.scopes.childrenOf k).map (makeRoom m) =
      ((ofProgram p name).1.scopes.childrenOf k).map (· + m) :=
  List.map_congr_left fun _ hx => makeRoom_of_pos m (pos_of_mem_childrenOf p name hx)

end Finished

/-! ## Tables with room for a class in front -/

/-- Tables that hold all that others do and a class in front, which takes `m` scopes. -/
structure RoomFor (c : ClassDecl ε) (m : Nat) (t t' : SymbolTables) : Prop where
  diagnostics : t'.diagnostics = t.diagnostics
  size : t'.scopes.size = t.scopes.size + m
  /-- Every scope but the global one is there at a greater key, with the same in it. -/
  scope : ∀ k s, 0 < k → t.scopes.get? k = some s →
    ∃ s', t'.scopes.get? (k + m) = some s' ∧ s'.kind = s.kind ∧ s'.name = s.name ∧
      s'.children = s.children.map (makeRoom m) ∧ s'.parent = s.parent.map (makeRoom m) ∧
      s'.symbols.map t'.described = s.symbols.map t.described
  /-- The global scope gains a symbol and a child in front. -/
  globalScope : t.globalScope = 0 ∧ t'.globalScope = 0
  global : ∃ s s', t.scopes.get? 0 = some s ∧ t'.scopes.get? 0 = some s' ∧ s'.kind = s.kind ∧
    s'.name = s.name ∧ s'.parent = s.parent ∧ s'.children = 1 :: s.children.map (makeRoom m) ∧
    s'.symbols.map t'.described =
      ⟨c.name, .class_, c.line, .ok c.name⟩ :: s.symbols.map t.described
  /-- That child is the scope of the class in front. -/
  child : ∃ s', t'.scopes.get? 1 = some s' ∧ s'.kind = .class_ ∧ s'.name = c.name ∧
    s'.parent = some 0
  classScopes : t'.classScopes = 1 :: t.classScopes.map (makeRoom m)
  /-- Classes have greater ids and the same names, and their superclasses move with them. -/
  classIds : t'.types.idsOf .class_ = 6 :: (t.types.idsOf .class_).map (· + 1)
  classEntry : ∀ id ∈ t.types.idsOf .class_, t'.types.entry? (id + 1) = t.types.entry? id
  lookupClass : ∀ className, className ≠ c.name →
    t'.types.lookupClass className = (t.types.lookupClass className).map (· + 1)
  lookupClass_self : t.types.lookupClass c.name = none ∧ t'.types.lookupClass c.name = some 6
  superclasses : t'.types.superclasses = t.types.superclasses.map fun e => (e.1 + 1, e.2 + 1)

section InFront

open Program

variable {p : Program ε} {c : ClassDecl ε} (h : p.Avoids c.name) (hc : c.superclass = none)
  (name : String)

theorem classScopes_precededBy :
    (ofProgram (p.precededBy c) name).1.classScopes =
      1 :: (ofProgram p name).1.classScopes.map (makeRoom c.outline.size) := by
  rw [ofProgram_classScopes, ofProgram_classScopes, classKeys_precededBy]
  refine congrArg (1 :: ·) (List.map_congr_left fun k hk => ?_)
  obtain ⟨i, hi, rfl⟩ := p.mem_classKeys.mp hk
  rw [makeRoom_of_pos _ (p.classKey_pos hi)]

theorem classId_succ (i : Nat) : classId (i + 1) = classId i + 1 := by
  show ((i + 1 : Nat) : Int) + 6 = (i : Int) + 6 + 1
  omega

theorem classIds_precededBy :
    (ofProgram (p.precededBy c) name).1.types.idsOf .class_ =
      6 :: ((ofProgram p name).1.types.idsOf .class_).map (· + 1) := by
  have hlength : (p.precededBy c).classes.length = p.classes.length + 1 := rfl
  rw [classIds_ofProgram, classIds_ofProgram, hlength, List.range_succ_eq_map, List.map_cons,
    List.map_map, List.map_map]
  exact congrArg (6 :: ·) (List.map_congr_left fun i _ => classId_succ i)

theorem classEntry_precededBy {id : TypeId}
    (hid : id ∈ (ofProgram p name).1.types.idsOf .class_) :
    (ofProgram (p.precededBy c) name).1.types.entry? (id + 1) =
      (ofProgram p name).1.types.entry? id := by
  rw [classIds_ofProgram] at hid
  obtain ⟨i, hi, rfl⟩ := List.mem_map.mp hid
  have hx : p.classes[i]? = some _ := List.getElem?_eq_getElem (List.mem_range.mp hi)
  have hx' : (p.precededBy c).classes[i + 1]? = some _ := hx
  rw [ofProgram_types, ofProgram_types, ← classId_succ,
    (linked_linkedTo p name (Nat.le_refl _)).entry?_classId hx,
    (linked_linkedTo (p.precededBy c) name (Nat.le_refl _)).entry?_classId hx']

theorem lookupClass_precededBy {className : String} (hne : className ≠ c.name) :
    (ofProgram (p.precededBy c) name).1.types.lookupClass className =
      ((ofProgram p name).1.types.lookupClass className).map (· + 1) := by
  rw [lookupClass_ofProgram, lookupClass_ofProgram, denoted?_precededBy hne, Option.map_map,
    Option.map_map]
  exact Option.map_congr fun i _ => classId_succ i

include h

theorem lookupClass_precededBy_self :
    (ofProgram p name).1.types.lookupClass c.name = none ∧
      (ofProgram (p.precededBy c) name).1.types.lookupClass c.name = some 6 := by
  rw [lookupClass_ofProgram, lookupClass_ofProgram, denoted?_precededBy_self,
    (p.denoted?_eq_none_iff c.name).mpr h.declared]
  exact ⟨rfl, rfl⟩

/-- A scope but the global one, at its place after the scopes of the class in front. -/
theorem symbols_precededBy {r : Region} {k : Nat} (hr : (r, k) ∈ p.loose name) (hk : 0 < k) :
    ∃ s, (ofProgram (p.precededBy c) name).1.scopes.get? (k + c.outline.size) = some s ∧
      s.kind = r.kind ∧ s.name = r.name ∧
      s.symbols.map (ofProgram (p.precededBy c) name).1.described =
        (kept p.declared r.declarations).map Declaration.described := by
  obtain ⟨s, hs, hkind, hname, hsymbols⟩ :=
    described_symbols (p.precededBy c) name (mem_loose_precededBy hr hk)
  rw [← h.kept_eq hr]
  exact ⟨s, hs, hkind, hname, hsymbols⟩

include hc

/-- Parents move as all keys do. -/
theorem parentOf_precededBy {r : Region} {k : Nat} (hr : (r, k) ∈ p.loose name) (hk : 0 < k) :
    (ofProgram (p.precededBy c) name).1.scopes.parentOf (k + c.outline.size) =
      ((ofProgram p name).1.scopes.parentOf k).map (makeRoom c.outline.size) := by
  have hsize : 0 < c.outline.size := Nat.succ_pos _
  -- Linking gives classes their parents, and other scopes have those that regions name.
  by_cases hclass : k ∈ p.classKeys
  · obtain ⟨i, hi, rfl⟩ := p.mem_classKeys.mp hclass
    rw [parentOf_classKey p name hi, ← classKey_precededBy_succ hi,
      parentOf_classKey (p.precededBy c) name (Nat.succ_lt_succ hi), h.parentKey_succ hc]
    rfl
  · have hother : k + c.outline.size ∉ (p.precededBy c).classKeys := by
      rw [classKeys_precededBy, List.mem_cons, List.mem_map]
      intro hmem
      rcases hmem with hone | ⟨x, hx, hkey⟩
      · omega
      · exact hclass (Nat.add_right_cancel hkey ▸ hx)
    rw [parentOf_of_notMem p name hr hclass,
      parentOf_of_notMem (p.precededBy c) name (mem_loose_precededBy hr hk) hother]
    show r.outer.map (· + c.outline.size) = _
    cases ho : r.outer with
    | none => rfl
    | some o =>
      rw [Option.map_some, Option.map_some, makeRoom_of_pos _ (outer_of_mem_loose hr ho).1]

/-- Children move as all keys do. -/
theorem childrenOf_precededBy {r : Region} {k : Nat} (hr : (r, k) ∈ p.loose name) (hk : 0 < k) :
    (ofProgram (p.precededBy c) name).1.scopes.childrenOf (k + c.outline.size) =
      ((ofProgram p name).1.scopes.childrenOf k).map (makeRoom c.outline.size) := by
  have hplaced := h.placedUnder_eq hc k
  rw [makeRoom_of_pos _ hk, if_neg (Nat.pos_iff_ne_zero.mp hk), List.nil_append] at hplaced
  rw [map_makeRoom_childrenOf, childrenOf_ofProgram _ name (mem_loose_precededBy hr hk), hplaced,
    childrenOf_ofProgram p name hr, List.map_append]
  rfl

/-- The class in front is the first child of the global scope. -/
theorem childrenOf_zero_precededBy :
    (ofProgram (p.precededBy c) name).1.scopes.childrenOf 0 =
      1 :: ((ofProgram p name).1.scopes.childrenOf 0).map (makeRoom c.outline.size) := by
  have hplaced := h.placedUnder_eq hc 0
  rw [map_makeRoom_childrenOf, childrenOf_ofProgram p name List.mem_cons_self,
    childrenOf_ofProgram (p.precededBy c) name List.mem_cons_self, List.nil_append]
  exact hplaced

theorem edge?_succ (i : Nat) :
    edge? (p.precededBy c) (i + 1) = (edge? p i).map fun e => (e.1 + 1, e.2 + 1) := by
  rw [edge?, edge?, (h.shifted hc).accepted_succ]
  cases accepted p.superclass? i with
  | none => rfl
  | some j => simp only [Option.map_some, classId_succ]

theorem superclasses_precededBy :
    (ofProgram (p.precededBy c) name).1.types.superclasses =
      (ofProgram p name).1.types.superclasses.map fun e => (e.1 + 1, e.2 + 1) := by
  have hlength : (p.precededBy c).classes.length = p.classes.length + 1 := rfl
  have hfirst : edge? (p.precededBy c) 0 = none := by
    rw [edge?, (h.shifted hc).accepted_zero, Option.map_none]
  rw [ofProgram_types, ofProgram_types, superclasses_linkedTo _ name (Nat.le_refl _),
    superclasses_linkedTo p name (Nat.le_refl _), hlength, List.range_succ_eq_map,
    List.filterMap_cons_none hfirst, List.filterMap_map, List.map_reverse, List.map_filterMap]
  refine congrArg List.reverse (List.filterMap_congr fun i _ => ?_)
  exact edge?_succ h hc i

theorem diagnostics_precededBy (hown : c.items.filterMap (·.rejection [c.name]) = []) :
    (ofProgram (p.precededBy c) name).1.diagnostics = (ofProgram p name).1.diagnostics := by
  rw [ofProgram_diagnostics, ofProgram_diagnostics,
    (linked_linkedTo (p.precededBy c) name (Nat.le_refl _)).diagnostics_eq,
    (linked_linkedTo p name (Nat.le_refl _)).diagnostics_eq, h.rejections_eq name hown,
    h.linkFaults_eq hc]

theorem scope_precededBy {k : Nat} {s : Scope} (hk : 0 < k)
    (hs : (ofProgram p name).1.scopes.get? k = some s) :
    ∃ s', (ofProgram (p.precededBy c) name).1.scopes.get? (k + c.outline.size) = some s' ∧
      s'.kind = s.kind ∧ s'.name = s.name ∧
      s'.children = s.children.map (makeRoom c.outline.size) ∧
      s'.parent = s.parent.map (makeRoom c.outline.size) ∧
      s'.symbols.map (ofProgram (p.precededBy c) name).1.described =
        s.symbols.map (ofProgram p name).1.described := by
  obtain ⟨r, hr⟩ := exists_loose p name (Arena.lt_size_of_get? hs)
  obtain ⟨s₀, hs₀, hkind, hname, hsymbols⟩ := described_symbols p name hr
  obtain rfl := Option.some.inj (hs.symm.trans hs₀)
  obtain ⟨s', hs', hkind', hname', hsymbols'⟩ := symbols_precededBy h name hr hk
  -- Both scopes are described by what one region keeps.
  refine ⟨s', hs', hkind'.trans hkind.symm, hname'.trans hname.symm, ?_, ?_,
    hsymbols'.trans hsymbols.symm⟩
  · rw [Arena.children_eq hs', Arena.children_eq hs, childrenOf_precededBy h hc name hr hk]
  · rw [Arena.parent_eq hs', Arena.parent_eq hs, parentOf_precededBy h hc name hr hk]

theorem global_precededBy :
    ∃ s s', (ofProgram p name).1.scopes.get? 0 = some s ∧
      (ofProgram (p.precededBy c) name).1.scopes.get? 0 = some s' ∧ s'.kind = s.kind ∧
      s'.name = s.name ∧ s'.parent = s.parent ∧
      s'.children = 1 :: s.children.map (makeRoom c.outline.size) ∧
      s'.symbols.map (ofProgram (p.precededBy c) name).1.described =
        c.declaration.described :: s.symbols.map (ofProgram p name).1.described := by
  obtain ⟨s, hs, hkind, hname, hsymbols⟩ :=
    described_symbols p name (List.mem_cons_self : (_, 0) ∈ p.loose name)
  obtain ⟨s', hs', hkind', hname', hsymbols'⟩ :=
    described_symbols (p.precededBy c) name
      (List.mem_cons_self : (_, 0) ∈ (p.precededBy c).loose name)
  refine ⟨s, s', hs, hs', hkind'.trans hkind.symm, hname'.trans hname.symm, ?_, ?_, ?_⟩
  · rw [Arena.parent_eq hs', Arena.parent_eq hs,
      parentOf_of_notMem _ name List.mem_cons_self (p.precededBy c).zero_notMem_classKeys,
      parentOf_of_notMem p name List.mem_cons_self p.zero_notMem_classKeys]
  · rw [Arena.children_eq hs', Arena.children_eq hs, childrenOf_zero_precededBy h hc name]
  · rw [hsymbols', hsymbols, h.kept_classes_eq, List.map_cons]

/-- The scope of the class in front comes after the global scope, and lies in it. -/
theorem child_precededBy :
    ∃ s', (ofProgram (p.precededBy c) name).1.scopes.get? 1 = some s' ∧ s'.kind = .class_ ∧
      s'.name = c.name ∧ s'.parent = some 0 := by
  have hmem : (_, 1) ∈ (p.precededBy c).loose name :=
    mem_loose_iff.mpr (Or.inr ⟨0, c, 0, _, rfl, rfl, rfl, rfl⟩)
  obtain ⟨s', hs', hkind, hname, -⟩ := get?_ofProgram (p.precededBy c) name hmem
  refine ⟨s', hs', hkind, hname, ?_⟩
  rw [Arena.parent_eq hs', ← h.parentKey_zero hc]
  exact parentOf_classKey (p.precededBy c) name (Nat.succ_pos _)

/-- There is room for a class in front if nothing is wrong with it by itself. -/
theorem roomFor_precededBy (hown : c.items.filterMap (·.rejection [c.name]) = []) :
    RoomFor c c.outline.size (ofProgram p name).1 (ofProgram (p.precededBy c) name).1 where
  diagnostics := diagnostics_precededBy h hc name hown
  size := by
    rw [size_ofProgram, size_ofProgram]
    show Outline.sizes (c.outline :: _) + 1 = _
    rw [Outline.sizes]
    omega
  scope k s hk hs := scope_precededBy h hc name hk hs
  globalScope := ⟨rfl, rfl⟩
  global := global_precededBy h hc name
  child := child_precededBy h hc name
  classScopes := classScopes_precededBy name
  classIds := classIds_precededBy name
  classEntry id hid := classEntry_precededBy name hid
  lookupClass className hne := lookupClass_precededBy name hne
  lookupClass_self := lookupClass_precededBy_self h name
  superclasses := superclasses_precededBy h hc name

end InFront

/-! ## The library in front -/

/-- A class that builds without diagnostics by itself has no items that are rejected. -/
theorem accepted_of_diagnostics_eq_nil {c : ClassDecl ε} {title : String}
    (h : (ofProgram ({ classes := [c] } : Program ε) title).1.diagnostics = []) :
    c.items.filterMap (·.rejection [c.name]) = [] := by
  let p : Program ε := { classes := [c] }
  rw [ofProgram_diagnostics, (linked_linkedTo p title (Nat.le_refl _)).diagnostics_eq,
    List.append_eq_nil_iff, Program.items, List.filterMap_append, List.append_eq_nil_iff] at h
  have hitems : p.classes.flatMap ClassDecl.items = c.items := List.append_nil _
  rw [hitems] at h
  exact h.1.2

/-- A program that does without the library has the same tables with a library in front,
one with which nothing is wrong, but for keys and ids. -/
theorem ofProgram_withLibrary {path text title : String} {library : ClassDecl Expr}
    (hload : loadLibrary path text = .ok library)
    (hclean : (ofProgram ({ classes := [library] } : Program Expr) title).1.diagnostics = [])
    {p : Program Expr} (h : p.Avoids libraryName) (name : String) :
    RoomFor library (1 + library.methods.length) (ofProgram p name).1
      (ofProgram (p.withLibrary (some library)) name).1 := by
  have hlibrary := loadLibrary_ok hload
  rw [← hlibrary.name] at h
  rw [← hlibrary.size_outline]
  exact roomFor_precededBy h hlibrary.superclass name (accepted_of_diagnostics_eq_nil hclean)

/-- A library that has the same array type and signature as the program, and a program
with a cycle of inheritance and a name that is taken. -/
theorem ofProgram_withLibrary_shared_types :
    let text := "class Library \x7b static int[] stoa(string s); static void exit(int[] a); \x7d"
    let a : ClassDecl Expr :=
      { name := "A", superclass := some "B"
        fields := [⟨⟨.primitive .int, 1, 2⟩, "x", 2⟩, ⟨⟨.user "B", 0, 3⟩, "x", 3⟩]
        methods := [⟨.virtual [.block [] 5 none], ⟨.primitive .int, 1, 4⟩, "m",
          [⟨⟨.primitive .string, 0, 4⟩, "s", 4, none⟩], 4, none⟩]
        line := 1 }
    let b : ClassDecl Expr :=
      { name := "B", superclass := some "A", fields := [], methods := [], line := 6 }
    let p : Program Expr := { classes := [a, b] }
    p.Avoids libraryName ∧ ∃ library : ClassDecl Expr,
      loadLibrary "lib.sig" text = .ok library ∧
      (ofProgram ({ classes := [library] } : Program Expr) "").1.diagnostics = [] ∧
      RoomFor library (1 + library.methods.length) (ofProgram p "ab.ic").1
        (ofProgram (p.withLibrary (some library)) "ab.ic").1 := by
  intro text a b p
  have hclean : (match loadLibrary "lib.sig" text with
      | .ok library =>
        (ofProgram ({ classes := [library] } : Program Expr) "").1.diagnostics.isEmpty
      | .error _ => false) = true := by
    decide +kernel
  have h : p.Avoids libraryName := ⟨by decide, by decide, by decide⟩
  refine ⟨h, ?_⟩
  cases hload : loadLibrary "lib.sig" text with
  | error e =>
    rw [hload] at hclean
    cases hclean
  | ok library =>
    rw [hload] at hclean
    have hnone := List.isEmpty_iff.mp hclean
    exact ⟨library, rfl, hnone, ofProgram_withLibrary hload hnone h "ab.ic"⟩

end SymbolTables

end IcFront
