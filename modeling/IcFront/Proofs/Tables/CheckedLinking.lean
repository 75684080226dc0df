import IcFront.Proofs.Tables.Checked
import IcFront.Proofs.Tables.Linkage

/-!
# The tables of a program, checked

`SymbolTables.buildChecked` makes the tables of a program with all that might stop it:
besides what may stop the construction of scopes, a search through the ancestors of a
class that does not end, a class type that cannot be given a superclass, and a class
that would be placed below no scope at all.

None of this happens (`buildChecked_eq`). The classes that the scopes find under a name
are those that the types find under it, so that a class which gets a superclass also
gets a scope to lie below. And the tables are sound (`ofProgram_types_sound`,
`ofProgram_holds`).
-/

namespace IcFront

variable {ε : Type}

/-- `liesIn`, checked. -/
def Arena.liesInChecked (a : Arena) (scope ancestor : Nat) : Except Fault Bool := do
  let around ← a.ancestorsChecked a.size scope
  return scope == ancestor || around.contains ancestor

namespace Draft

/-- `inherit`, checked: whether a class has a superclass is left to the types, and where
it lies to the scopes. -/
def inheritChecked (d : Draft) (classes : List (ScopedClass ε)) (c : ScopedClass ε)
    (superclass : String) : Except Fault (Except SemanticError (Draft × Nat)) := do
  let found := firstNamed classes superclass
  let closes ← match found with
    | some parent => d.scopes.liesInChecked parent c.scope
    | none => pure false
  if closes then return .error (.cyclicInheritance c.decl.name superclass)
  match d.types.setSuperclass c.type superclass, found with
  | .ok (types, _), some parent => return .ok ({ d with types }, parent)
  | .ok _, none => throw (.unplaced c.decl.name)
  | .error (.unresolvedSuperclass className superclass), _ =>
    return .error (.unresolvedSuperclass className superclass)
  | .error e, _ => throw (.types e)

/-- `place`, checked. -/
def placeChecked (classes : List (ScopedClass ε)) (global : Nat) (d : Draft)
    (c : ScopedClass ε) : Except Fault Draft := do
  let (d, parent) ←
    match c.decl.superclass with
    | none => pure (d, global)
    | some superclass => do
      match ← d.inheritChecked classes c superclass with
      | .ok (d, parent) => pure (d, parent)
      | .error e => pure (d.report e c.decl.line, global)
  if (d.scopes.get? parent).isNone then throw (.missingScope parent)
  let d := d.attach parent c.scope
  return d.note (.linked c.decl.name (d.scopes.describe parent))

end Draft

/-- `ofProgram`, checked. -/
def SymbolTables.buildChecked (p : Program ε) (name : String) :
    Except Fault (SymbolTables × Program ε) := do
  let d : Draft := { types := .new name }
  let (d, global) := d.newScope .global name
  let (d, registered) := d.registerAll global p.classes
  let (d, classes) ← d.classScopesChecked registered
  let d ← classes.foldlM (Draft.placeChecked classes global) d
  return ({ programName := name, scopes := d.scopes, globalScope := global, types := d.types,
            classScopes := classes.map (·.scope), events := d.events },
    { p with classes := classes.map (·.decl), scope := some global })

namespace Draft

open TypeTable

/-- A class that gets a superclass is to lie below the scope found under its name. -/
theorem inherit_ok {d d' : Draft} {classes : List (ScopedClass ε)}
    {c : ScopedClass ε} {superclass : String} {parent : Nat}
    (h : d.inherit classes c superclass = .ok (d', parent)) :
    d'.scopes = d.scopes ∧ firstNamed classes superclass = some parent := by
  unfold Draft.inherit at h
  split at h
  next => cases h
  next found hfound =>
    split at h
    next => cases h
    next =>
      split at h
      next =>
        cases h
        exact ⟨rfl, hfound⟩
      next => cases h

/-! ## Registration -/

theorem Sound.register {d : Draft} (h : d.Sound) (key : Nat) (c : ClassDecl ε) :
    (d.register key c).1.Sound := by
  have htypes : Draft.Sound { d with types := (d.types.internClass c.name).1 } := by
    refine ⟨h.types.internClass c.name, fun s hs => ?_⟩
    obtain ⟨hpos, hle⟩ := h.symbols s hs
    refine ⟨hpos, hle.trans ?_⟩
    simp [size, internClass, add]
  have hid : (d.types.internClass c.name).1.Holds (d.types.internClass c.name).2 := by
    refine holds_succ.mpr ?_
    simp [size, internClass, add]
  have hdeclared := htypes.declare key (s := ⟨c.name, .class_, (d.types.internClass c.name).2,
    c.line⟩) hid
  exact ⟨hdeclared.types, hdeclared.symbols⟩

theorem Sound.registerAll {d : Draft} (h : d.Sound) (key : Nat) (cs : List (ClassDecl ε)) :
    (d.registerAll key cs).1.Sound := by
  induction cs generalizing d with
  | nil => exact h
  | cons c cs ih => exact ih (h.register key c)

end Draft

namespace SymbolTables

theorem registered_sound (p : Program ε) (name : String) : (registered p name).1.Sound := by
  have hnew : Draft.Sound { types := .new name } :=
    ⟨TypeTable.sound_new name, fun _ hs => absurd hs List.not_mem_nil⟩
  exact (hnew.newScope .global name).registerAll 0 p.classes

/-- Nothing stops the construction of the scopes of a program's classes. -/
theorem unlinked_checked (p : Program ε) (name : String) :
    (registered p name).1.classScopesChecked (registered p name).2 = .ok (unlinked p name) ∧
      (unlinked p name).1.Sound :=
  Draft.classScopes_checked (registered_sound p name) (registered_knows p name) _

/-! ## Linking -/

namespace Linked

variable {p : Program ε} {name : String} {i : Nat} {d : Draft}

/-- Linking leaves symbols and types as they are. -/
theorem sound (h : Linked p name i d) : d.Sound := by
  obtain ⟨htypes, hsymbols⟩ := (unlinked_checked p name).2
  have hsame : d.scopes.symbols = (unlinked p name).1.scopes.symbols := by
    have hbare := congrArg (List.flatMap Scope.symbols) h.bare
    rwa [List.flatMap_map, List.flatMap_map] at hbare
  refine ⟨htypes.of_entries h.entries, fun s hs => ?_⟩
  rw [hsame] at hs
  exact (hsymbols s hs).of_entries h.entries

theorem liesInChecked_eq (h : Linked p name i d) {j : Nat} (hj : j < p.classes.length)
    (k : Nat) :
    d.scopes.liesInChecked (p.classKey j) k = .ok (d.scopes.liesIn (p.classKey j) k) := by
  have hkey : p.classKey j < d.scopes.size := h.size ▸ classKey_lt_size p name hj
  rw [Arena.liesInChecked, Arena.ancestorsChecked_eq h.closed h.acyclic hkey]
  rfl

/-- Nothing stops a class from getting its superclass, or the reason why it cannot have
it. -/
theorem inherit_checked (h : Linked p name i d) {c : ClassDecl ε} {s : ScopedClass ε}
    (hc : p.classes[i]? = some c) (hs : (unlinked p name).2[i]? = some s) (superclass : String) :
    d.inheritChecked (unlinked p name).2 s superclass =
      .ok (d.inherit (unlinked p name).2 s superclass) := by
  obtain ⟨s', hs', hname, _, _, htype, hscope⟩ := unlinked_class p name hc
  obtain rfl : s = s' := Option.some.inj (hs.symm.trans hs')
  have hi : i < p.classes.length := (List.getElem?_eq_some_iff.mp hc).1
  have hentry := h.entry?_classId hc
  unfold Draft.inheritChecked Draft.inherit
  rw [firstNamed_unlinked, htype, hname]
  cases hj : p.denoted? superclass with
  | none =>
    -- What the scopes do not find, the types do not find either.
    have hset : d.types.setSuperclass (classId i) superclass =
        .error (.unresolvedSuperclass c.name superclass) := by
      simp only [TypeTable.setSuperclass, hentry, h.lookupClass_eq, hj, Option.map_none]
    rw [hset]
    rfl
  | some j =>
    have hlies := h.liesInChecked_eq (Program.denoted?_lt hj) s.scope
    rw [h.setSuperclass_eq hi hj, Option.map_some]
    simp only [hlies]
    cases d.scopes.liesIn (p.classKey j) s.scope <;> rfl

/-- Nothing stops a class from being placed: the scope that it is to lie below is
there. -/
theorem place_checked (h : Linked p name i d) {c : ClassDecl ε} {s : ScopedClass ε}
    (hc : p.classes[i]? = some c) (hs : (unlinked p name).2[i]? = some s) :
    d.placeChecked (unlinked p name).2 0 s = .ok (d.place (unlinked p name).2 0 s) := by
  have hthere : ∀ k, k < (unlinked p name).1.scopes.size → (d.scopes.get? k).isNone = false := by
    intro k hk
    obtain ⟨scope, hscope⟩ := Arena.get?_eq_some (h.size ▸ hk)
    rw [hscope, Option.isNone_some]
  have hzero : 0 < (unlinked p name).1.scopes.size := by
    rw [size_unlinked]
    exact Nat.succ_pos _
  unfold Draft.placeChecked Draft.place
  cases hsup : s.decl.superclass with
  | none =>
    simp only [pure_bind, hthere 0 hzero]
    rfl
  | some superclass =>
    dsimp only
    rw [h.inherit_checked hc hs]
    cases hin : d.inherit (unlinked p name).2 s superclass with
    | error e =>
      show (if (d.scopes.get? 0).isNone = true then _ else _) = _
      rw [hthere 0 hzero]
      rfl
    | ok found =>
      obtain ⟨d', parent⟩ := found
      obtain ⟨hscopes, hfirst⟩ := Draft.inherit_ok hin
      rw [firstNamed_unlinked] at hfirst
      obtain ⟨j, hj, rfl⟩ := Option.map_eq_some_iff.mp hfirst
      have hparent := hthere _ (classKey_lt_size p name (Program.denoted?_lt hj))
      rw [← hscopes] at hparent
      show (if (d'.scopes.get? (p.classKey j)).isNone = true then _ else _) = _
      rw [hparent]
      rfl

end Linked

/-- Nothing stops the first classes of a program from being placed. -/
theorem foldlM_place_checked (p : Program ε) (name : String) {i : Nat}
    (hi : i ≤ p.classes.length) :
    ((unlinked p name).2.take i).foldlM (Draft.placeChecked (unlinked p name).2 0)
      (unlinked p name).1 = .ok (linkedTo p name i) := by
  induction i with
  | zero => rfl
  | succ i ih =>
    have hc := List.getElem?_eq_getElem (Nat.lt_of_succ_le hi)
    obtain ⟨s, hs, _⟩ := unlinked_class p name hc
    have hlinked := linked_linkedTo p name (Nat.le_of_succ_le hi)
    rw [List.take_add_one, hs, Option.toList_some, List.foldlM_append, ih (Nat.le_of_succ_le hi),
      linkedTo_succ p name hs, ← hlinked.place_checked hc hs]
    exact bind_pure ((linkedTo p name i).placeChecked (unlinked p name).2 0 s)

/-- The tables of a program come to be without anything that stops them. -/
theorem buildChecked_eq (p : Program ε) (name : String) :
    buildChecked p name = .ok (ofProgram p name) := by
  have hplaced := foldlM_place_checked p name (Nat.le_refl p.classes.length)
  rw [← length_unlinked p name, List.take_length] at hplaced
  show ((registered p name).1.classScopesChecked (registered p name).2 >>= _) = _
  rw [(unlinked_checked p name).1]
  show ((unlinked p name).2.foldlM (Draft.placeChecked (unlinked p name).2 0)
    (unlinked p name).1 >>= _) = _
  rw [hplaced, length_unlinked p name, linkedTo_length]
  rfl

/-! ## Finished tables -/

/-- The parts of every type of finished tables come before it. -/
theorem ofProgram_types_sound (p : Program ε) (name : String) :
    (ofProgram p name).1.types.Sound := by
  rw [ofProgram_types]
  exact (linked_linkedTo p name (Nat.le_refl p.classes.length)).sound.types

/-- Every symbol of finished tables has a type of theirs. -/
theorem ofProgram_holds (p : Program ε) (name : String) {s : Symbol}
    (hs : s ∈ (ofProgram p name).1.scopes.symbols) : (ofProgram p name).1.types.Holds s.type := by
  rw [ofProgram_scopes] at hs
  rw [ofProgram_types]
  exact (linked_linkedTo p name (Nat.le_refl p.classes.length)).sound.symbols s hs

end SymbolTables

end IcFront
