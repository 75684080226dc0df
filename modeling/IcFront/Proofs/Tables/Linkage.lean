import IcFront.Proofs.Superclasses
import IcFront.Proofs.Tables.Forest

/-!
# Linking classes, step by step

`SymbolTables.linkedTo` is where the tables stand when the first `i` classes of a
program are placed below their superclasses. `Linked` says all about it: the
classes placed have the parents and the superclass ids that the graph of the
program gives them (`Program.parentKey`), the others have none yet, and no scope
is among its own ancestors.

That last part is what makes the search for a cycle work. The ancestors of a class
are those that it has by the edges accepted so far (`Linked.reaches_iff`), so a
class is found to close a cycle exactly if it is the last of one
(`Linked.liesIn_iff`).
-/

namespace IcFront

variable {ε : Type}

/-! ## One scope placed below another -/

/-- A scope without its links to others. -/
def Scope.bare (s : Scope) : Scope := { s with children := [], parent := none }

namespace Arena

variable {a : Arena} {parent child : Nat}

/-- Makes a scope the last child of another and that one its parent. -/
def attach (a : Arena) (parent child : Nat) : Arena :=
  (a.addChild parent child).setParent child parent

theorem get?_attach (a : Arena) (parent child k : Nat) :
    (a.attach parent child).get? k =
      (a.get? k).map fun s =>
        { s with
          children := if parent = k then s.children ++ [child] else s.children
          parent := if child = k then some parent else s.parent } := by
  rw [attach, setParent, addChild, get?_modify, get?_modify]
  cases a.get? k with
  | none => simp
  | some s => split <;> split <;> rfl

theorem parentOf_attach (hchild : child < a.size) (k : Nat) :
    (a.attach parent child).parentOf k = if k = child then some parent else a.parentOf k := by
  rw [parentOf, get?_attach, parentOf]
  by_cases hk : k = child
  · subst hk
    obtain ⟨s, hs⟩ := get?_eq_some hchild
    simp [hs]
  · cases a.get? k with
    | none => simp [hk]
    | some s => simp [hk, Ne.symm hk]

theorem childrenOf_attach (hparent : parent < a.size) (k : Nat) :
    (a.attach parent child).childrenOf k =
      a.childrenOf k ++ if parent = k then [child] else [] := by
  rw [childrenOf, get?_attach, childrenOf]
  cases hs : a.get? k with
  | none =>
    have hne : parent ≠ k := by
      intro heq
      subst heq
      obtain ⟨s, hs'⟩ := get?_eq_some hparent
      exact absurd (hs.symm.trans hs') (by simp)
    simp [hne]
  | some s => by_cases hk : parent = k <;> simp [hk]

theorem bare_attach : (a.attach parent child).scopes.map Scope.bare = a.scopes.map Scope.bare := by
  refine List.ext_getElem? fun k => ?_
  have h := get?_attach a parent child k
  rw [get?, get?] at h
  rw [List.getElem?_map, List.getElem?_map, h, Option.map_map]
  rfl

end Arena

/-! ## What linking is to do -/

namespace Program

/-- The key of the scope that the class at a position belongs below. -/
def parentKey (p : Program ε) (i : Nat) : Nat :=
  match accepted p.superclass? i with
  | some j => p.classKey j
  | none => 0

/-- The keys of those of the first `i` classes that belong below a scope. -/
def placedUnder (p : Program ε) (i k : Nat) : List Nat :=
  ((List.range i).filter fun x => p.parentKey x = k).map p.classKey

theorem placedUnder_succ (p : Program ε) (i k : Nat) :
    p.placedUnder (i + 1) k =
      p.placedUnder i k ++ if p.parentKey i = k then [p.classKey i] else [] := by
  by_cases h : p.parentKey i = k <;> simp [placedUnder, List.range_succ, h]

variable {p : Program ε} {i j : Nat}

theorem lt_of_accepted (h : accepted p.superclass? i = some j) : j < p.classes.length := by
  unfold accepted at h
  split at h
  next => exact absurd h (by simp)
  next => exact p.superclass?_lt i j h

theorem parentKey_of_accepted (h : accepted p.superclass? i = some j) :
    p.parentKey i = p.classKey j := by
  simp only [parentKey, h]

theorem parentKey_of_not_accepted (h : accepted p.superclass? i = none) : p.parentKey i = 0 := by
  simp only [parentKey, h]

end Program

theorem classId_inj {i j : Nat} (h : classId i = classId j) : i = j := by
  have : (i : Int) + 6 = (j : Int) + 6 := h
  omega

namespace SymbolTables

/-- The tables of a program when its first `i` classes are linked. -/
def linkedTo (p : Program ε) (name : String) (i : Nat) : Draft :=
  ((unlinked p name).2.take i).foldl (Draft.place (unlinked p name).2 0) (unlinked p name).1

theorem linkedTo_succ (p : Program ε) (name : String) {i : Nat} {s : ScopedClass ε}
    (hs : (unlinked p name).2[i]? = some s) :
    linkedTo p name (i + 1) = (linkedTo p name i).place (unlinked p name).2 0 s := by
  obtain ⟨hi, rfl⟩ := List.getElem?_eq_some_iff.mp hs
  rw [linkedTo, ← List.take_append_getElem hi, List.foldl_append]
  rfl

theorem length_unlinked (p : Program ε) (name : String) :
    (unlinked p name).2.length = p.classes.length := by
  rw [← p.length_classKeys, Program.classKeys, ← unlinked_keys p name, List.length_map]

theorem linkedTo_length (p : Program ε) (name : String) :
    linkedTo p name p.classes.length =
      (unlinked p name).2.foldl (Draft.place (unlinked p name).2 0) (unlinked p name).1 := by
  rw [linkedTo, ← length_unlinked p name, List.take_length]

/-- The class at a position, with what linking needs of it. -/
theorem unlinked_class (p : Program ε) (name : String) {i : Nat} {c : ClassDecl ε}
    (hc : p.classes[i]? = some c) :
    ∃ s, (unlinked p name).2[i]? = some s ∧ s.decl.name = c.name ∧
      s.decl.superclass = c.superclass ∧ s.decl.line = c.line ∧ s.type = classId i ∧
      s.scope = p.classKey i := by
  have hi : i < p.classes.length := (List.getElem?_eq_some_iff.mp hc).1
  have hdecl := congrArg (·[i]?) (unlinked_decls p name)
  have hkey := congrArg (·[i]?) (unlinked_keys p name)
  simp only [List.getElem?_map, List.getElem?_mapIdx, hc, Option.map_some] at hdecl hkey
  obtain ⟨s, hs, heq⟩ := Option.map_eq_some_iff.mp hdecl
  simp only [Prod.mk.injEq] at heq
  obtain ⟨hname, hsuper, hline, htype⟩ := heq
  have hscope := p.getElem?_classKeys hi
  rw [hs, Option.map_some, ← Program.classKeys, hscope] at hkey
  exact ⟨s, hs, hname, hsuper, hline, htype, Option.some.inj hkey⟩

theorem unlinked_names (p : Program ε) (name : String) :
    (unlinked p name).2.map (·.decl.name) = p.declared := by
  have h := congrArg (List.map Prod.fst) (unlinked_decls p name)
  rw [List.map_map] at h
  refine h.trans (List.ext_getElem? fun i => ?_)
  simp [Program.declared, Function.comp_def]

/-- A name means the same class to the scopes as in the program. -/
theorem firstNamed_unlinked (p : Program ε) (name superclass : String) :
    firstNamed (unlinked p name).2 superclass = (p.denoted? superclass).map p.classKey := by
  have hindex : p.denoted? superclass =
      (unlinked p name).2.findIdx? (fun c => c.decl.name == superclass) := by
    rw [Program.denoted?, ← unlinked_names p name, List.findIdx?_map]
    rfl
  rw [firstNamed, List.find?_eq_bind_findIdx?_getElem?, ← hindex]
  cases hj : p.denoted? superclass with
  | none => rfl
  | some j =>
    have hlt := Program.denoted?_lt hj
    obtain ⟨s, hs, _, _, _, _, hscope⟩ :=
      unlinked_class p name (List.getElem?_eq_getElem hlt)
    rw [Option.bind_some, hs, Option.map_some, Option.map_some, hscope]

/-! ## The invariant -/

/-- Tables whose first `i` classes are linked as the program says, and which are
otherwise as they were. -/
structure Linked (p : Program ε) (name : String) (i : Nat) (d : Draft) : Prop where
  bare : d.scopes.scopes.map Scope.bare = (unlinked p name).1.scopes.scopes.map Scope.bare
  childrenOf : ∀ k, d.scopes.childrenOf k =
    (unlinked p name).1.scopes.childrenOf k ++ p.placedUnder i k
  parentOf_class : ∀ x, x < p.classes.length →
    d.scopes.parentOf (p.classKey x) = if x < i then some (p.parentKey x) else none
  parentOf_other : ∀ k, k ∉ p.classKeys →
    d.scopes.parentOf k = (unlinked p name).1.scopes.parentOf k
  acyclic : Acyclic d.scopes.parentOf
  name_eq : d.types.name = (unlinked p name).1.types.name
  entries : d.types.entries = (unlinked p name).1.types.entries
  superclassOf : ∀ x, d.types.superclassOf (classId x) =
    if x < i then (accepted p.superclass? x).map classId else none
  diagnostics : d.diagnostics =
    (unlinked p name).1.diagnostics ++ (List.range i).filterMap p.linkFault

theorem parentKey_lt_size (p : Program ε) (name : String) (i : Nat) :
    p.parentKey i < (unlinked p name).1.scopes.size := by
  cases h : accepted p.superclass? i with
  | none =>
    rw [Program.parentKey_of_not_accepted h, size_unlinked]
    exact Nat.succ_pos _
  | some j =>
    rw [Program.parentKey_of_accepted h]
    exact classKey_lt_size p name (Program.lt_of_accepted h)

theorem linked_zero (p : Program ε) (name : String) : Linked p name 0 (unlinked p name).1 where
  bare := rfl
  childrenOf := fun k => by simp [Program.placedUnder]
  parentOf_class := fun x hx => by
    rw [if_neg (Nat.not_lt_zero x), parentOf_unlinked_classKey p name hx]
  parentOf_other := fun _ _ => rfl
  acyclic := acyclic_of_lt fun _ _ h => (unlinked_parent_lt p name h).2
  name_eq := rfl
  entries := rfl
  superclassOf := fun x => by
    rw [TypeTable.superclassOf, unlinked_superclasses, if_neg (Nat.not_lt_zero x)]
    rfl
  diagnostics := by simp

namespace Linked

variable {p : Program ε} {name : String} {i : Nat} {d : Draft}

theorem size (h : Linked p name i d) : d.scopes.size = (unlinked p name).1.scopes.size := by
  have hlen := congrArg List.length h.bare
  rwa [List.length_map, List.length_map] at hlen

theorem parentOf_zero (h : Linked p name i d) : d.scopes.parentOf 0 = none := by
  rw [h.parentOf_other 0 p.zero_notMem_classKeys, parentOf_unlinked_eq_none]
  · exact Or.inl rfl
  · rw [size_unlinked]
    exact Nat.succ_pos _

theorem closed (h : Linked p name i d) : d.scopes.Closed := by
  intro x y hxy
  rw [h.size]
  by_cases hx : x ∈ p.classKeys
  · obtain ⟨z, hz, rfl⟩ := p.mem_classKeys.mp hx
    rw [h.parentOf_class z hz] at hxy
    split at hxy
    next => exact Option.some.inj hxy ▸ parentKey_lt_size p name z
    next => exact absurd hxy (by simp)
  · have hlt := h.size ▸ Arena.lt_size_of_parentOf hxy
    rw [h.parentOf_other x hx] at hxy
    exact (unlinked_parent_lt p name hxy).2.trans hlt

/-- From the global scope nothing is reached. -/
theorem not_reaches_of_zero (h : Linked p name i d) {k : Nat} (hk : 0 < k) :
    ¬ Relation.ReflTransGen (Leads d.scopes.parentOf) 0 k := by
  intro hway
  rcases Relation.ReflTransGen.cases_head hway with hzero | ⟨y, hstep, _⟩
  · omega
  · exact absurd (h.parentOf_zero.symm.trans hstep) (by simp)

/-- Classes are reached from each other by the edges accepted so far. -/
theorem reaches_iff (h : Linked p name i d) {x y : Nat} (hx : x < p.classes.length)
    (hy : y < p.classes.length) :
    Relation.ReflTransGen (Leads d.scopes.parentOf) (p.classKey x) (p.classKey y) ↔
      Relation.ReflTransGen (Leads (acceptedBefore p.superclass? i)) x y := by
  constructor
  · intro hway
    generalize hk : p.classKey x = k at hway
    induction hway using Relation.ReflTransGen.head_induction_on generalizing x with
    | refl =>
      obtain rfl := p.classKey_inj hx hy hk
      exact .refl
    | @head k k' hstep hway ih =>
      subst hk
      have hparent := h.parentOf_class x hx
      rw [show d.scopes.parentOf _ = some k' from hstep] at hparent
      by_cases hxi : x < i
      · rw [if_pos hxi] at hparent
        obtain rfl := Option.some.inj hparent
        cases hacc : accepted p.superclass? x with
        | none =>
          -- A class without an accepted edge lies below the global scope.
          rw [Program.parentKey_of_not_accepted hacc] at hway
          exact absurd hway (h.not_reaches_of_zero (p.classKey_pos hy))
        | some z =>
          have hedge : Leads (acceptedBefore p.superclass? i) x z := by
            rw [Leads, acceptedBefore, if_pos hxi, hacc]
          exact .head hedge
            (ih (Program.lt_of_accepted hacc) (Program.parentKey_of_accepted hacc).symm)
      · rw [if_neg hxi] at hparent
        exact absurd hparent (by simp)
  · intro hway
    induction hway using Relation.ReflTransGen.head_induction_on with
    | refl => exact .refl
    | @head x z hstep hway ih =>
      obtain ⟨hxi, hlast, hnext⟩ := acceptedBefore_eq_some.mp hstep
      have hacc : accepted p.superclass? x = some z := by rw [accepted, if_neg hlast, hnext]
      refine .head ?_ (ih (p.superclass?_lt x z hnext))
      rw [Leads, h.parentOf_class x hx, if_pos hxi, Program.parentKey_of_accepted hacc]

/-- The search for a cycle finds the classes that are the last of one. -/
theorem liesIn_iff (h : Linked p name i d) (hi : i < p.classes.length) {j : Nat}
    (hj : p.superclass? i = some j) :
    d.scopes.liesIn (p.classKey j) (p.classKey i) = true ↔ LastOnCycle p.superclass? i := by
  rw [Arena.liesIn_iff h.closed, h.reaches_iff (p.superclass?_lt i j hj) hi,
    reaches_iff_lastOnCycle hj]

/-- The id of a class is that of its own entry. -/
theorem entry?_classId (h : Linked p name i d) {x : Nat} {c : ClassDecl ε}
    (hc : p.classes[x]? = some c) : d.types.entry? (classId x) = some (.class_ c.name) := by
  rw [← unlinked_entry? p name hc, TypeTable.entry?, TypeTable.entry?, h.entries]

/-- A name means the same class to the types as in the program. -/
theorem lookupClass_eq (h : Linked p name i d) (superclass : String) :
    d.types.lookupClass superclass = (p.denoted? superclass).map classId := by
  rw [Program.denoted?, ← unlinked_lookupClass p name, TypeTable.lookupClass,
    TypeTable.lookupClass, TypeTable.find?_eq_map, TypeTable.find?_eq_map, h.entries]

/-- A class that is not the last of a cycle can be made a subclass. -/
theorem setSuperclass_eq (h : Linked p name i d) (hi : i < p.classes.length) {superclass : String}
    {j : Nat} (hj : p.denoted? superclass = some j) :
    d.types.setSuperclass (classId i) superclass =
      .ok ({ d.types with superclasses := (classId i, classId j) :: d.types.superclasses },
        classId j) := by
  have hentry := h.entry?_classId (List.getElem?_eq_getElem hi)
  have hlookup : d.types.lookupClass superclass = some (classId j) := by
    rw [h.lookupClass_eq, hj, Option.map_some]
  simp only [TypeTable.setSuperclass, hentry, hlookup]

/-! ## One step -/

/-- A class is placed below the scope that it belongs below. If the program gives it
a superclass that it cannot have, that is reported. -/
theorem place_eq (h : Linked p name i d) {c : ClassDecl ε} {s : ScopedClass ε}
    (hc : p.classes[i]? = some c) (hs : (unlinked p name).2[i]? = some s) :
    (d.place (unlinked p name).2 0 s).scopes = d.scopes.attach (p.parentKey i) (p.classKey i) ∧
      (d.place (unlinked p name).2 0 s).types =
        { d.types with
          superclasses := ((accepted p.superclass? i).map fun j =>
            (classId i, classId j)).toList ++ d.types.superclasses } ∧
      (d.place (unlinked p name).2 0 s).diagnostics =
        d.diagnostics ++ (p.linkFault i).toList := by
  have hi : i < p.classes.length := (List.getElem?_eq_some_iff.mp hc).1
  obtain ⟨s', hs', hname, hsuper, hline, htype, hscope⟩ := unlinked_class p name hc
  obtain rfl : s = s' := Option.some.inj (hs.symm.trans hs')
  have hnext : p.superclass? i = c.superclass.bind p.denoted? := by
    rw [Program.superclass?, hc, Option.bind_some]
  unfold Draft.place Program.linkFault
  rw [hc, Option.bind_some, hsuper]
  cases hsup : c.superclass with
  | none =>
    have hacc : accepted p.superclass? i = none := by simp [accepted, hnext, hsup]
    rw [hacc, Program.parentKey_of_not_accepted hacc, hscope]
    exact ⟨rfl, rfl, by simp [Draft.diagnostics, Draft.note, Draft.attach, Event.diagnostic?]⟩
  | some superclass =>
    rw [hsup, Option.bind_some] at hnext
    simp only [Draft.inherit, firstNamed_unlinked, Option.bind_some]
    cases hj : p.denoted? superclass with
    | none =>
      -- The name denotes no class: no edge, and an error.
      have hacc : accepted p.superclass? i = none := by simp [accepted, hnext, hj]
      rw [hacc, Program.parentKey_of_not_accepted hacc, hscope, hname, hline]
      refine ⟨rfl, rfl, ?_⟩
      simp [Draft.diagnostics, Draft.note, Draft.report, Draft.attach, Event.diagnostic?]
    | some j =>
      rw [hj] at hnext
      by_cases hlast : LastOnCycle p.superclass? i
      · -- The superclass lies below the class already: the edge is refused.
        have hacc : accepted p.superclass? i = none := by simp [accepted, hlast]
        have hlies := (h.liesIn_iff hi hnext).mpr hlast
        rw [hacc, Program.parentKey_of_not_accepted hacc, hscope, hname, hline]
        simp only [Option.map_some, hlies, if_true, if_pos hlast]
        refine ⟨rfl, rfl, ?_⟩
        simp [Draft.diagnostics, Draft.note, Draft.report, Draft.attach, Event.diagnostic?]
      · -- The edge is accepted, by the scopes and by the types.
        have hacc : accepted p.superclass? i = some j := by simp [accepted, hlast, hnext]
        have hlies : d.scopes.liesIn (p.classKey j) (p.classKey i) = false :=
          Bool.eq_false_iff.mpr fun hl => hlast ((h.liesIn_iff hi hnext).mp hl)
        rw [hacc, Program.parentKey_of_accepted hacc, hscope, htype]
        simp only [Option.map_some, hlies, h.setSuperclass_eq hi hj, if_neg hlast]
        refine ⟨rfl, rfl, ?_⟩
        simp [Draft.diagnostics, Draft.note, Draft.attach, Event.diagnostic?]

/-- Where a class is placed there is no way back to it. -/
theorem not_reaches (h : Linked p name i d) (hi : i < p.classes.length) :
    ¬ Relation.ReflTransGen (Leads d.scopes.parentOf) (p.parentKey i) (p.classKey i) := by
  cases hacc : accepted p.superclass? i with
  | none =>
    rw [Program.parentKey_of_not_accepted hacc]
    exact h.not_reaches_of_zero (p.classKey_pos hi)
  | some j =>
    rw [Program.parentKey_of_accepted hacc, h.reaches_iff (Program.lt_of_accepted hacc) hi]
    unfold accepted at hacc
    split at hacc
    next => exact absurd hacc (by simp)
    next hlast => rwa [reaches_iff_lastOnCycle hacc]

/-- The id of the superclass that a class gets is kept for that class alone. -/
theorem superclassOf_accept (h : Linked p name i d) (x : Nat) :
    { d.types with
      superclasses := ((accepted p.superclass? i).map fun j =>
        (classId i, classId j)).toList ++ d.types.superclasses }.superclassOf (classId x) =
      if x < i + 1 then (accepted p.superclass? x).map classId else none := by
  have hold := h.superclassOf x
  rw [TypeTable.superclassOf] at hold ⊢
  by_cases hxi : x = i
  · subst hxi
    rw [if_neg (lt_irrefl x)] at hold
    rw [if_pos (Nat.lt_succ_self x)]
    cases accepted p.superclass? x with
    | none => exact hold
    | some j => simp
  · have hne : ¬ classId x = classId i := fun hid => hxi (classId_inj hid)
    have hlookup : ∀ o : Option Nat, ((o.map fun j => (classId i, classId j)).toList ++
        d.types.superclasses).lookup (classId x) = d.types.superclasses.lookup (classId x) := by
      intro o
      cases o with
      | none => rfl
      | some j => simp [List.lookup_cons, beq_eq_false_iff_ne.mpr hne]
    rw [hlookup, hold]
    congr 1
    exact propext ⟨fun hlt => by omega, fun hlt => by omega⟩

theorem place (h : Linked p name i d) {c : ClassDecl ε} {s : ScopedClass ε}
    (hc : p.classes[i]? = some c) (hs : (unlinked p name).2[i]? = some s) :
    Linked p name (i + 1) (d.place (unlinked p name).2 0 s) := by
  have hi : i < p.classes.length := (List.getElem?_eq_some_iff.mp hc).1
  have hchild : p.classKey i < d.scopes.size := h.size ▸ classKey_lt_size p name hi
  have hparent : p.parentKey i < d.scopes.size := h.size ▸ parentKey_lt_size p name i
  obtain ⟨hscopes, htypes, hdiagnostics⟩ := h.place_eq hc hs
  -- One step gives the class its parent and its id, and leaves all others alone.
  refine ⟨?_, fun k => ?_, fun x hx => ?_, fun k hk => ?_, ?_, ?_, ?_, fun x => ?_, ?_⟩
  · rw [hscopes, Arena.bare_attach, h.bare]
  · rw [hscopes, Arena.childrenOf_attach hparent, h.childrenOf, p.placedUnder_succ,
      List.append_assoc]
  · rw [hscopes, Arena.parentOf_attach hchild, h.parentOf_class x hx]
    by_cases hxi : x = i
    · subst hxi
      rw [if_pos rfl, if_pos (Nat.lt_succ_self x)]
    · rw [if_neg fun hkey => hxi (p.classKey_inj hx hi hkey)]
      congr 1
      exact propext ⟨fun hlt => by omega, fun hlt => by omega⟩
  · rw [hscopes, Arena.parentOf_attach hchild, h.parentOf_other k hk, if_neg]
    intro heq
    subst heq
    exact hk (p.classKey_mem hi)
  · rw [hscopes]
    refine acyclic_of_redirect h.acyclic ?_ (fun x hx => ?_) (h.not_reaches hi)
    · rw [Arena.parentOf_attach hchild, if_pos rfl]
    · rw [Arena.parentOf_attach hchild, if_neg hx]
  · rw [htypes]
    exact h.name_eq
  · rw [htypes]
    exact h.entries
  · rw [htypes]
    exact h.superclassOf_accept x
  · rw [hdiagnostics, h.diagnostics, List.range_succ, List.filterMap_append, List.append_assoc]
    cases hfault : p.linkFault i <;> simp [hfault]

end Linked

/-- After every step of linking the tables are linked that far. -/
theorem linked_linkedTo (p : Program ε) (name : String) {i : Nat} (hi : i ≤ p.classes.length) :
    Linked p name i (linkedTo p name i) := by
  induction i with
  | zero => exact linked_zero p name
  | succ i ih =>
    have hc := List.getElem?_eq_getElem (Nat.lt_of_succ_le hi)
    obtain ⟨s, hs, _⟩ := unlinked_class p name hc
    rw [linkedTo_succ p name hs]
    exact (ih (Nat.le_of_succ_le hi)).place hc hs

/-! ## Finished tables -/

theorem ofProgram_scopes (p : Program ε) (name : String) :
    (ofProgram p name).1.scopes = (linkedTo p name p.classes.length).scopes := by
  rw [ofProgram_fst, linkedTo_length]

theorem ofProgram_types (p : Program ε) (name : String) :
    (ofProgram p name).1.types = (linkedTo p name p.classes.length).types := by
  rw [ofProgram_fst, linkedTo_length]

theorem ofProgram_classScopes (p : Program ε) (name : String) :
    (ofProgram p name).1.classScopes = p.classKeys := by
  rw [ofProgram_fst, Program.classKeys, ← unlinked_keys]

theorem ofProgram_diagnostics (p : Program ε) (name : String) :
    (ofProgram p name).1.diagnostics = (linkedTo p name p.classes.length).diagnostics := by
  rw [ofProgram_fst, linkedTo_length]
  rfl

end SymbolTables

end IcFront
