import IcFront.Proofs.Tables.Reports

/-!
# Inheritance

What linking the classes of a program comes to (`links_as_declared`). Take the graph
that has an edge from each class to the class that it extends. Linking keeps all of
its edges but one of each cycle, that of the class declared last, and reports that
one; and it reports the classes that extend no class. Scopes and types agree about
the edges kept, and no scope is among its own ancestors at any time.
-/

namespace IcFront

variable {ε : Type}

/-- Nothing that is wrong with an item is about a superclass. -/
theorem Item.rejection_not_isLinkage {declared : List String} {item : Item} {d : Diagnostic}
    (h : item.rejection declared = some d) : d.error.isLinkage = false := by
  cases item with
  | type type line =>
    simp only [rejection, TypeRef.undefined?] at h
    split at h
    next => exact absurd h (by simp)
    next =>
      obtain rfl := Option.some.inj h
      rfl
  | name x place earlier =>
    simp only [rejection] at h
    split at h
    next =>
      obtain rfl := Option.some.inj h
      rfl
    next => exact absurd h (by simp)

namespace SymbolTables

/-- What linking the classes of a program is to do. The classes stand in
`(unlinked p name).2` with their types and scopes. -/
structure LinksAsDeclared (p : Program ε) (name : String) : Prop where
  /-- These are the classes of the program, with the scopes that the tables list and
  each with a type of its own. -/
  names : (unlinked p name).2.map (·.decl.name) = p.declared
  classScopes : (unlinked p name).2.map (·.scope) = (ofProgram p name).1.classScopes
  entries : ∀ i s, (unlinked p name).2[i]? = some s → s.type = classId i ∧
    (ofProgram p name).1.types.entry? s.type = some (.class_ s.decl.name)
  /-- The errors about superclasses are the faults of the classes, each once. -/
  reports : (ofProgram p name).1.diagnostics.filter (·.error.isLinkage) =
    (List.range p.classes.length).filterMap p.linkFault
  /-- Classes that extend no class have no fault. -/
  no_fault : ∀ i c, p.classes[i]? = some c → c.superclass = none → p.linkFault i = none
  /-- A superclass is unresolved if no class has its name. -/
  unresolved : ∀ i c superclass, p.classes[i]? = some c → c.superclass = some superclass →
    (p.linkFault i = some ⟨.unresolvedSuperclass c.name superclass, c.line⟩ ↔
      superclass ∉ p.declared)
  /-- Inheritance is cyclic at the last class of each cycle. -/
  cyclic : ∀ i c superclass, p.classes[i]? = some c → c.superclass = some superclass →
    (p.linkFault i = some ⟨.cyclicInheritance c.name superclass, c.line⟩ ↔
      LastOnCycle p.superclass? i)
  /-- Each cycle has exactly one such class. -/
  one_each : ∀ i, Relation.TransGen (Leads p.superclass?) i i →
    ∃! k, (Relation.TransGen (Leads p.superclass?) i k ∧
        Relation.TransGen (Leads p.superclass?) k i) ∧
      LastOnCycle p.superclass? k
  /-- Every other edge is there among the scopes and among the types. -/
  edge_linked : ∀ i j s u, (unlinked p name).2[i]? = some s → (unlinked p name).2[j]? = some u →
    p.superclass? i = some j → ¬ LastOnCycle p.superclass? i →
      (ofProgram p name).1.scopes.parentOf s.scope = some u.scope ∧
        (ofProgram p name).1.types.superclassOf s.type = some u.type
  /-- Classes without an edge, or whose edge is refused, lie below the global scope. -/
  others_global : ∀ i s, (unlinked p name).2[i]? = some s →
    p.superclass? i = none ∨ LastOnCycle p.superclass? i →
      (ofProgram p name).1.scopes.parentOf s.scope = some (ofProgram p name).1.globalScope ∧
        (ofProgram p name).1.types.superclassOf s.type = none
  /-- `linkedTo` goes through the classes one after the other, to the finished scopes. -/
  step : ∀ i s, (unlinked p name).2[i]? = some s →
    linkedTo p name (i + 1) = (linkedTo p name i).place (unlinked p name).2 0 s
  finished : (ofProgram p name).1.scopes = (linkedTo p name p.classes.length).scopes
  /-- After every step no scope is among its ancestors, so that these end. -/
  acyclic : ∀ i, i ≤ p.classes.length → Acyclic (linkedTo p name i).scopes.parentOf
  ancestors_end : ∀ i key depth, i ≤ p.classes.length →
    (linkedTo p name i).scopes.size ≤ depth →
      (linkedTo p name i).scopes.ancestorsWithin depth key =
        (linkedTo p name i).scopes.ancestors key

/-- The errors about superclasses come from linking alone. -/
theorem filter_isLinkage_diagnostics (p : Program ε) (name : String) :
    (ofProgram p name).1.diagnostics.filter (·.error.isLinkage) =
      (List.range p.classes.length).filterMap p.linkFault := by
  have hunlinked : (unlinked p name).1.diagnostics.filter (·.error.isLinkage) = [] := by
    rw [unlinked_diagnostics, List.filter_eq_nil_iff]
    intro d hd
    obtain ⟨item, _, hitem⟩ := List.mem_filterMap.mp hd
    rw [Item.rejection_not_isLinkage hitem]
    exact Bool.false_ne_true
  have hlinked := (linked_linkedTo p name (Nat.le_refl p.classes.length)).diagnostics
  rw [ofProgram_diagnostics, hlinked, List.filter_append, hunlinked, List.nil_append,
    List.filter_eq_self]
  intro d hd
  obtain ⟨i, _, hi⟩ := List.mem_filterMap.mp hd
  exact Program.linkFault_isLinkage hi

/-- Which classes there are, by their types and scopes. -/
theorem unlinked_getElem? {p : Program ε} {name : String} {i : Nat} {s : ScopedClass ε}
    (hs : (SymbolTables.unlinked p name).2[i]? = some s) :
    ∃ c, p.classes[i]? = some c ∧ s.decl.name = c.name ∧ s.type = classId i ∧
      s.scope = p.classKey i := by
  have hi : i < p.classes.length :=
    length_unlinked p name ▸ (List.getElem?_eq_some_iff.mp hs).1
  have hc := List.getElem?_eq_getElem hi
  obtain ⟨s', hs', hname, _, _, htype, hscope⟩ := unlinked_class p name hc
  obtain rfl := Option.some.inj (hs.symm.trans hs')
  exact ⟨_, hc, hname, htype, hscope⟩

/-- Linking breaks exactly what it must, and links the rest. -/
theorem links_as_declared (p : Program ε) (name : String) : LinksAsDeclared p name := by
  have h := linked_linkedTo p name (Nat.le_refl p.classes.length)
  refine ⟨unlinked_names p name, rfl, fun i s hs => ?_, filter_isLinkage_diagnostics p name,
    fun i c hc hs => Program.linkFault_eq_none hc hs,
    fun i c superclass hc hs => Program.linkFault_unresolved_iff hc hs,
    fun i c superclass hc hs => Program.linkFault_cyclic_iff hc hs,
    fun i hi => existsUnique_lastOnCycle p.superclass?_lt hi,
    fun i j s u hs hu hj hlast => ?_, fun i s hs hnot => ?_,
    fun i s hs => linkedTo_succ p name hs, ofProgram_scopes p name,
    fun i hi => (linked_linkedTo p name hi).acyclic,
    fun i key depth hi hdepth => ?_⟩
  · obtain ⟨c, hc, hname, htype, _⟩ := unlinked_getElem? hs
    rw [ofProgram_types, htype, hname, h.entry?_classId hc]
    exact ⟨rfl, rfl⟩
  · obtain ⟨c, hc, _, htype, hscope⟩ := unlinked_getElem? hs
    obtain ⟨_, _, _, htype', hscope'⟩ := unlinked_getElem? hu
    have hi : i < p.classes.length := (List.getElem?_eq_some_iff.mp hc).1
    have hacc : accepted p.superclass? i = some j := by rw [accepted, if_neg hlast, hj]
    rw [ofProgram_scopes, ofProgram_types, hscope, hscope', htype, htype',
      h.parentOf_class i hi, h.superclassOf i, if_pos hi, if_pos hi, hacc,
      Program.parentKey_of_accepted hacc]
    exact ⟨rfl, rfl⟩
  · obtain ⟨c, hc, _, htype, hscope⟩ := unlinked_getElem? hs
    have hi : i < p.classes.length := (List.getElem?_eq_some_iff.mp hc).1
    have hacc : accepted p.superclass? i = none := by
      rcases hnot with hnone | hlast
      · rw [accepted, hnone, ite_self]
      · rw [accepted, if_pos hlast]
    rw [ofProgram_scopes, ofProgram_types, hscope, htype, h.parentOf_class i hi,
      h.superclassOf i, if_pos hi, if_pos hi, hacc, Program.parentKey_of_not_accepted hacc]
    exact ⟨rfl, rfl⟩
  · have hi := linked_linkedTo p name hi
    exact Arena.ancestorsWithin_eq_ancestors hi.closed hi.acyclic hdepth key

end SymbolTables

end IcFront
