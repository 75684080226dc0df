import IcFront.Proofs.Tables.Classes
import IcFront.Tables.SymbolTables

/-!
# The tables before classes are linked

`SymbolTables.unlinked` is where the tables of a program stand when every class
has its scope and none is linked to its superclass. All of it can be read off the
program: the scopes are those that the regions ask for (`unlinked_scopes`), the
`i`-th class has the id `classId i` (`unlinked_lookupClass`, `unlinked_entry?`)
and no class has a superclass.
-/

namespace IcFront

variable {ε : Type} {T : TypeTable} {declared : List String}

/-- The id of the class at a position: the primitive types come first. -/
def classId (i : Nat) : TypeId := (i : Int) + 6

/-- The symbol of the class at a position. -/
def ClassDecl.symbolAt (i : Nat) (c : ClassDecl ε) : Symbol := ⟨c.name, .class_, classId i, c.line⟩

namespace Draft

open TypeTable Outline

/-! ## Registration -/

theorem register_types (d : Draft) (key : Nat) (c : ClassDecl ε) :
    (d.register key c).1.types =
      { d.types with entries := d.types.entries ++ [.class_ c.name] } :=
  declare_types { d with types := (d.types.internClass c.name).1 } key _

/-- After the five primitive types and `n` classes comes the class at position `n`. -/
theorem internClass_id {t : TypeTable} {n : Nat} (hn : t.entries.length = n + 5)
    (className : String) : (t.internClass className).2 = classId n := by
  show (t.entries.length : Int) + 1 = (n : Int) + 6
  omega

theorem register_length {d : Draft} {n : Nat} (hn : d.types.entries.length = n + 5) (key : Nat)
    (c : ClassDecl ε) : (d.register key c).1.types.entries.length = n + 1 + 5 := by
  rw [register_types]
  simp only [List.length_append, List.length_singleton]
  omega

theorem registerAll_types (d : Draft) (key : Nat) (cs : List (ClassDecl ε)) :
    (d.registerAll key cs).1.types =
      { d.types with entries := d.types.entries ++ cs.map fun c => .class_ c.name } := by
  induction cs generalizing d with
  | nil => simp [registerAll]
  | cons c cs ih =>
    refine (ih (d.register key c).1).trans ?_
    rw [register_types]
    simp

theorem registerAll_snd (d : Draft) (key n : Nat) (cs : List (ClassDecl ε))
    (hn : d.types.entries.length = n + 5) :
    (d.registerAll key cs).2 = cs.mapIdx fun i c => (c, classId (n + i)) := by
  induction cs generalizing d n with
  | nil => rfl
  | cons c cs ih =>
    have hid : (d.register key c).2 = classId n := internClass_id hn c.name
    have hrest := ih (d.register key c).1 (n + 1) (register_length hn key c)
    show (c, (d.register key c).2) :: ((d.register key c).1.registerAll key cs).2 = _
    rw [hrest, hid, List.mapIdx_cons]
    simp only [Nat.add_zero, Nat.add_assoc, Nat.add_comm 1]

theorem registerAll_scopes (d : Draft) {key : Nat} (n : Nat) (hkey : key < d.scopes.size)
    (cs : List (ClassDecl ε)) (hn : d.types.entries.length = n + 5) :
    (d.registerAll key cs).1.scopes =
      d.scopes.modify key (·.receive (cs.mapIdx fun i c => c.symbolAt (n + i)) []) := by
  induction cs generalizing d n with
  | nil => simp [registerAll]
  | cons c cs ih =>
    have hscopes : (d.register key c).1.scopes =
        d.scopes.modify key (·.receive [c.symbolAt n] []) := by
      rw [ClassDecl.symbolAt, ← internClass_id hn c.name]
      exact declare_scopes { d with types := (d.types.internClass c.name).1 } _ hkey
    refine (ih (d.register key c).1 (n + 1) (by rw [hscopes, Arena.size_modify]; exact hkey)
      (register_length hn key c)).trans ?_
    rw [hscopes, Arena.modify_modify, List.mapIdx_cons]
    simp only [Scope.receive_receive, List.append_nil, List.singleton_append, Nat.add_zero,
      Nat.add_assoc, Nat.add_comm 1]

end Draft

/-! ## The unlinked tables -/

namespace SymbolTables

open TypeTable Outline

/-- The tables of a program whose classes are registered, with their ids. -/
def registered (p : Program ε) (name : String) : Draft × List (ClassDecl ε × TypeId) :=
  let d : Draft := { types := .new name }
  let (d, global) := d.newScope .global name
  d.registerAll global p.classes

/-- The tables of a program before any class is linked, and its classes. -/
def unlinked (p : Program ε) (name : String) : Draft × List (ScopedClass ε) :=
  (registered p name).1.classScopes (registered p name).2

/-- Linking makes the tables of a program of the unlinked ones. -/
theorem ofProgram_fst (p : Program ε) (name : String) :
    (ofProgram p name).1 =
      let d := (unlinked p name).2.foldl (Draft.place (unlinked p name).2 0) (unlinked p name).1
      { programName := name, scopes := d.scopes, globalScope := 0, types := d.types,
        classScopes := (unlinked p name).2.map (·.scope), events := d.events } := rfl

theorem registered_types (p : Program ε) (name : String) :
    (registered p name).1.types =
      { name, entries := PrimitiveKind.all.map .primitive ++ p.declared.map .class_ } := by
  refine (Draft.registerAll_types _ 0 p.classes).trans ?_
  rw [Program.declared, List.map_map]
  rfl

theorem registered_snd (p : Program ε) (name : String) :
    (registered p name).2 = p.classes.mapIdx fun i c => (c, classId i) := by
  refine (Draft.registerAll_snd _ 0 0 p.classes rfl).trans ?_
  simp only [Nat.zero_add]

theorem registered_map_fst {β : Type} (p : Program ε) (name : String) (f : ClassDecl ε → β) :
    (registered p name).2.map (fun c => f c.1) = p.classes.map f := by
  rw [registered_snd]
  exact List.ext_getElem? fun i => by simp [Function.comp_def]

theorem registered_lookupClass (p : Program ε) (name className : String) :
    (registered p name).1.types.lookupClass className =
      (p.declared.findIdx? (· == className)).map classId := by
  have hprims : (PrimitiveKind.all.map TypeEntry.primitive).findIdx?
      (· == TypeEntry.class_ className) = none := by
    simp [PrimitiveKind.all]
  have hclasses : ((· == TypeEntry.class_ className) ∘ TypeEntry.class_) =
      fun declaredName => declaredName == className := by
    funext declaredName
    simp
  rw [lookupClass, find?_eq_map, registered_types, List.findIdx?_append, hprims, Option.none_or,
    List.findIdx?_map, hclasses, Option.map_map]
  rfl

theorem registered_knows (p : Program ε) (name : String) :
    (registered p name).1.types.Knows p.declared := by
  intro className
  rw [registered_lookupClass, Option.isSome_map, List.findIdx?_isSome, List.contains_eq_any_beq]
  congr 1
  funext declaredName
  rw [Bool.eq_iff_iff, beq_iff_eq, beq_iff_eq, eq_comm]

/-- Classes are always resolvable. -/
theorem resolved_classes (cs : List (ClassDecl ε)) :
    resolved T declared (cs.map ClassDecl.declaration) =
      cs.map fun c => c.declaration.symbol T := by
  rw [resolved, List.filter_eq_self.mpr, List.map_map]
  · rfl
  · intro x hx
    obtain ⟨c, _, rfl⟩ := List.mem_map.mp hx
    rfl

/-- The first class of a name has the id that the name means. -/
theorem symbolAt_eq_symbol {before cs : List (ClassDecl ε)} {c : ClassDecl ε}
    (hT : ∀ className, T.lookupClass className =
      ((before ++ c :: cs).findIdx? (·.name == className)).map classId)
    (hfree : before.any (·.name == c.name) = false) :
    c.symbolAt before.length = c.declaration.symbol T := by
  have hnone : before.findIdx? (·.name == c.name) = none := by
    rw [List.findIdx?_eq_none_iff]
    simpa using hfree
  have hhere : (c :: cs).findIdx? (·.name == c.name) = some 0 := by
    simp [List.findIdx?_cons]
  have hid := hT c.name
  rw [List.findIdx?_append, hnone, hhere, Option.none_or, Option.map_some, Option.map_some,
    Nat.zero_add] at hid
  simp only [ClassDecl.symbolAt, Declaration.symbol, ClassDecl.declaration, DeclaredType.id, hid,
    Option.getD_some]

/-- Of the classes of one name the first is the one whose symbol is kept, so that
the id of the symbol is the one that the name means. -/
theorem foldl_keepFirst_symbolAt (before cs : List (ClassDecl ε))
    (hT : ∀ className, T.lookupClass className =
      ((before ++ cs).findIdx? (·.name == className)).map classId) :
    (cs.mapIdx fun i c => c.symbolAt (before.length + i)).foldl (keepFirst (·.name))
        ((before.map fun c => c.declaration.symbol T).foldl (keepFirst (·.name)) []) =
      ((before ++ cs).map fun c => c.declaration.symbol T).foldl (keepFirst (·.name)) [] := by
  induction cs generalizing before with
  | nil => rw [List.append_nil]; rfl
  | cons c cs ih =>
    -- If `c` is kept its name is new, and then means `c`.
    have hstep : keepFirst (·.name)
          ((before.map fun c => c.declaration.symbol T).foldl (keepFirst (·.name)) [])
          (c.symbolAt before.length) =
        ((before ++ [c]).map fun c => c.declaration.symbol T).foldl (keepFirst (·.name)) [] := by
      rw [List.map_append, List.foldl_append]
      refine keepFirst_congr rfl fun hfree => symbolAt_eq_symbol hT ?_
      rw [any_foldl_keepFirst, List.nil_append, List.any_map] at hfree
      exact hfree
    have hrest := ih (before ++ [c]) (by
      intro className
      rw [hT, List.append_assoc, List.singleton_append])
    rw [List.length_append, List.length_singleton, List.append_assoc, List.singleton_append]
      at hrest
    rw [List.mapIdx_cons, List.foldl_cons, Nat.add_zero, hstep, ← hrest]
    simp only [Nat.add_assoc, Nat.add_comm 1]

/-- After registration there is the scope of the program, which declares the
classes. -/
theorem registered_scopes (declared : List String) (p : Program ε) (name : String)
    (hT : (registered p name).1.types.Grows T) :
    (registered p name).1.scopes =
      ⟨[Region.scope T declared
        ⟨.global, name, p.classes.map ClassDecl.declaration, none, []⟩]⟩ := by
  have hsymbols := foldl_keepFirst_symbolAt (T := T) [] p.classes fun className => by
    rw [List.nil_append, lookupClass_of_grows hT, registered_lookupClass, Program.declared,
      List.findIdx?_map]
    rfl
  have hkept := foldl_keepFirst_resolved T declared (p.classes.map ClassDecl.declaration)
  rw [resolved_classes] at hkept
  refine (Draft.registerAll_scopes _ 0 Nat.one_pos p.classes rfl).trans ?_
  refine congrArg (fun s => Arena.mk [s]) ?_
  rw [Region.scope, ← hkept]
  exact congrArg (fun xs => ({ kind := .global, name, symbols := xs } : Scope)) hsymbols

/-! ## What the unlinked tables are -/

theorem grows_unlinked (p : Program ε) (name : String) :
    (registered p name).1.types.Grows (unlinked p name).1.types :=
  Draft.grows_classScopes _ _

theorem unlinked_lookupClass (p : Program ε) (name className : String) :
    (unlinked p name).1.types.lookupClass className =
      (p.declared.findIdx? (· == className)).map classId := by
  rw [lookupClass_of_grows (grows_unlinked p name), registered_lookupClass]

theorem unlinked_superclasses (p : Program ε) (name : String) :
    (unlinked p name).1.types.superclasses = [] := by
  rw [(grows_unlinked p name).superclasses_eq, registered_types]

/-- Each class has an entry of its own, also one whose name is taken. -/
theorem unlinked_entry? (p : Program ε) (name : String) {i : Nat} {c : ClassDecl ε}
    (hi : p.classes[i]? = some c) :
    (unlinked p name).1.types.entry? (classId i) = some (.class_ c.name) := by
  obtain ⟨more, hmore, _⟩ := (grows_unlinked p name).entries_eq
  have hindex : (classId i).toNat - 1 = i + 5 := by
    show ((i : Int) + 6).toNat - 1 = i + 5
    omega
  have hlen : i < p.classes.length := (List.getElem?_eq_some_iff.mp hi).1
  have hpos : (1 : Int) ≤ classId i := by
    show (1 : Int) ≤ (i : Int) + 6
    omega
  have hprims : (PrimitiveKind.all.map TypeEntry.primitive).length = 5 := rfl
  rw [TypeTable.entry?, if_pos hpos, hindex, hmore, registered_types, Program.declared,
    List.getElem?_append_left (by simp only [List.length_append, hprims, List.length_map]; omega),
    List.getElem?_append_right (by omega), hprims, Nat.add_sub_cancel, List.getElem?_map,
    List.getElem?_map, hi]
  rfl

/-- The scopes are laid out as the regions are, but for the links to superclasses:
the scope of the program has no children and those of classes have no parents. -/
theorem unlinked_scopes (p : Program ε) (name : String) :
    (unlinked p name).1.scopes =
      ⟨Region.scope (unlinked p name).1.types p.declared
          ⟨.global, name, p.classes.map ClassDecl.declaration, none, []⟩ ::
        scopesOf (unlinked p name).1.types p.declared none 1
          (p.classes.map ClassDecl.outline)⟩ := by
  have hclasses := Draft.classScopes_scopes (registered p name).1 (registered_knows p name)
    (registered p name).2 (.refl _)
  rw [registered_scopes p.declared p name (grows_unlinked p name),
    registered_map_fst p name ClassDecl.outline] at hclasses
  exact hclasses

/-- The classes, with their ids. -/
theorem unlinked_decls (p : Program ε) (name : String) :
    (unlinked p name).2.map (fun s => (s.decl.name, s.decl.superclass, s.decl.line, s.type)) =
      p.classes.mapIdx fun i c => (c.name, c.superclass, c.line, classId i) := by
  refine (Draft.classScopes_classes _ (registered_knows p name) _).1.trans ?_
  rw [registered_snd]
  exact List.ext_getElem? fun i => by simp [Function.comp_def]

/-- The scopes of the classes stand where their regions do. -/
theorem unlinked_keys (p : Program ε) (name : String) :
    (unlinked p name).2.map (·.scope) = keys 1 (p.classes.map ClassDecl.outline) := by
  have hkeys := (Draft.classScopes_classes _ (registered_knows p name) (registered p name).2).2
  rw [registered_scopes p.declared p name (grows_unlinked p name),
    registered_map_fst p name ClassDecl.outline] at hkeys
  exact hkeys

end SymbolTables

end IcFront
