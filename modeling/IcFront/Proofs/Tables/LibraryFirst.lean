import IcFront.Proofs.Compilation
import IcFront.Proofs.Tables.TypeIdentity
import IcFront.Session

/-!
# The library class comes first

A text is a library signature exactly if it is a single class that is written as one
(`ClassTree.IsSignature`): named `Library`, with nothing in it but static methods without
bodies (`loadLibrary_iff`).

Such a class stands in front of the classes of every program. `LibraryFirst` says what this
comes to in the tables, for programs too that have classes of the same name, or of which
classes extend the library: the first scope after the global one and the first id of a class
are the library's, and it is what its name means to scopes, types, and the global scope. The
classes of the same name have scopes and ids of their own, and only lose the name. That they
do is reported for each of them and for nothing else in the global scope, since whatever
else a class declares is declared inside it (`ClassDecl.inside_of_items`).
-/

namespace IcFront

variable {ε : Type}

/-! ## What is read as a library -/

/-- A class that is written as a library, with static methods without bodies only. -/
structure ClassTree.IsSignature (c : ClassTree) : Prop where
  name : c.name.text = libraryName
  superclass : c.superclass = none
  members : ∀ m ∈ c.members, ∃ s, m = .method s none ∧ s.static = true

/-- Where every method without a body is static, a class is a library if it is written
as one. -/
theorem ClassTree.isLibrary_decl_iff {c : ClassTree} (h : ∀ m ∈ c.members, m.Bodied) :
    c.decl.IsLibrary ↔ c.IsSignature := by
  constructor
  · intro hlibrary
    refine ⟨hlibrary.name, Option.map_eq_none_iff.mp hlibrary.superclass, fun m hm => ?_⟩
    have hfields : m.fieldsOf = [] := List.flatMap_eq_nil_iff.mp hlibrary.fields m hm
    cases m with
    | fields type first further => cases hfields
    | method s body =>
      have hmethod := hlibrary.methods (methodOf s body)
        (List.mem_flatMap.mpr ⟨_, hm, List.mem_singleton_self _⟩)
      cases body with
      | none => exact ⟨s, rfl, h _ hm⟩
      | some body =>
        unfold methodOf Method.isLibrary at hmethod
        cases hstatic : s.static <;> simp [hstatic] at hmethod
  · intro hsignature
    refine ⟨hsignature.name, ?_, List.flatMap_eq_nil_iff.mpr fun m hm => ?_, fun x hx => ?_⟩
    · show c.superclass.map _ = none
      rw [hsignature.superclass, Option.map_none]
    · obtain ⟨s, rfl, -⟩ := hsignature.members m hm
      rfl
    · obtain ⟨m, hm, hx⟩ := List.mem_flatMap.mp hx
      obtain ⟨s, rfl, -⟩ := hsignature.members m hm
      rw [List.mem_singleton.mp hx]
      rfl

variable {path text : String} {c : ClassDecl Expr}

/-- A text gives a library class exactly if it parses and is a single class that is written
as a library. -/
theorem loadLibrary_iff : loadLibrary path text = .ok c ↔
    Program.parse text = .ok { classes := [c] } ∧
      ∃ tree, (Reading.of text).result = .ok [tree] ∧ tree.IsSignature := by
  constructor
  · intro h
    unfold loadLibrary at h
    split at h
    next p hp =>
      obtain ⟨hclasses, hlibrary⟩ := libraryOf_iff.mp h
      rw [hp]
      unfold Program.parse at hp
      split at hp
      next trees htrees =>
        obtain ⟨rfl, -, -, hbodied⟩ := ProgramTree.meaning_ok hp
        obtain ⟨tree, rfl, rfl⟩ := List.map_eq_singleton_iff.mp hclasses
        exact ⟨rfl, tree, htrees,
          (tree.isLibrary_decl_iff (hbodied tree List.mem_cons_self)).mp hlibrary⟩
      next => cases hp
    next => cases h
  · rintro ⟨hp, tree, htree, hsignature⟩
    rw [loadLibrary, hp]
    refine libraryOf_iff.mpr ⟨rfl, ?_⟩
    rw [Program.parse, htree] at hp
    obtain ⟨hclasses, -, -, hbodied⟩ := ProgramTree.meaning_ok hp
    obtain rfl : c = tree.decl := (List.cons.inj (congrArg Program.classes hclasses)).1
    exact (tree.isLibrary_decl_iff (hbodied tree List.mem_cons_self)).mpr hsignature

/-! ## What stands in front of a program -/

theorem Method.kind_declaration_of_isLibrary {m : Method ε} (h : m.isLibrary = true) :
    m.declaration.kind = .staticMethod := by
  unfold isLibrary at h
  split at h
  next hform => rw [declaration, hform]
  next => cases h

/-- What is found among things that are kept is found with more that come later. -/
theorem find?_foldl_keepFirst {α : Type} {name : α → String} {q : α → Bool} {kept xs : List α}
    {x : α} (h : kept.find? q = some x) : (xs.foldl (keepFirst name) kept).find? q = some x := by
  induction xs generalizing kept with
  | nil => exact h
  | cons y ys ih =>
    refine ih ?_
    unfold keepFirst
    split
    next => exact h
    next => rw [List.find?_append, h, Option.some_or]

namespace Program

section InFront

variable {library : ClassDecl ε} {p : Program ε} {name : String}

theorem classKey_zero_precededBy : (p.precededBy library).classKey 0 = 1 := by
  rw [classKey, classKeys_precededBy]
  rfl

theorem parentKey_zero_precededBy (hsuper : library.superclass = none) :
    (p.precededBy library).parentKey 0 = 0 := by
  have hnone : (p.precededBy library).superclass? 0 = none := by
    show ((some library).bind (·.superclass)).bind _ = none
    rw [Option.bind_some, hsuper, Option.bind_none]
  refine parentKey_of_not_accepted ?_
  unfold accepted
  split
  next => rfl
  next => exact hnone

end InFront

section Library

variable {library : ClassDecl Expr} (h : library.IsLibrary) (p : Program Expr) (name : String)
include h

/-- The library class comes right after the global scope. -/
theorem library_mem_loose :
    (⟨.class_, libraryName, library.methods.map Method.declaration, none,
      List.range' 2 library.methods.length⟩, 1) ∈ (p.precededBy library).loose name := by
  have hinner : List.range' 2 library.methods.length =
      (Outline.keys 1 (library.methods.map Method.outline)).map (· + 1) := by
    rw [← Outline.keys_moved, Outline.keys_of_isLibrary h.methods]
  refine mem_loose_iff.mpr (Or.inr ⟨0, library, 0, _, rfl, rfl, ?_, ?_⟩)
  · rw [Region.moved, classKey_zero_precededBy, h.fields, h.name, hinner]
    rfl
  · rw [classKey_zero_precededBy]

/-- Its methods come right after it. -/
theorem libraryMethod_mem_loose {i : Nat} {m : Method Expr} (hm : library.methods[i]? = some m) :
    (⟨.method, m.name, m.formals.map Formal.declaration, some 1, []⟩, 2 + i) ∈
      (p.precededBy library).loose name := by
  refine mem_loose_iff.mpr (Or.inr ⟨0, library, i + 1,
    ⟨.method, m.name, m.formals.map Formal.declaration, some 0, []⟩, rfl, ?_, ?_, ?_⟩)
  · rw [ClassDecl.outline, Outline.regions, List.getElem?_cons_succ,
      Outline.regionsOf_of_isLibrary h.methods, List.getElem?_map, hm]
    rfl
  · rw [classKey_zero_precededBy]
    rfl
  · rw [classKey_zero_precededBy]
    omega

end Library

end Program

/-! ## What is reported of the global scope -/

namespace Item

/-- Whether what is looked at is inside of the global scope: if it is a name, it is declared
in a scope of another kind. -/
def IsInside : Item → Prop
  | type .. => True
  | name _ place _ => ∃ kind title, kind ≠ .global ∧ place = ScopeKind.place kind title

theorem place_ne_global {kind : ScopeKind} (hkind : kind ≠ .global) (title name : String) :
    kind.place title ≠ ScopeKind.global.place name := by
  intro h
  have hchars := congrArg (·.toList.head?) h
  cases kind with
  | global => exact hkind rfl
  | class_ | method | block => simp [ScopeKind.place, Scope.describe, ScopeKind.lowerText] at hchars

/-- What is inside is not reported as a duplicate of the global scope. -/
theorem IsInside.error_ne {item : Item} (h : item.IsInside) {declared : List String}
    {d : Diagnostic} (hd : item.rejection declared = some d) (n name : String) :
    d.error ≠ .duplicateDeclaration n (ScopeKind.global.place name) := by
  cases item with
  | type t line =>
    rw [rejection, TypeRef.undefined?] at hd
    split at hd
    next => cases hd
    next =>
      cases hd
      exact SemanticError.noConfusion
  | name x place earlier =>
    obtain ⟨kind, title, hkind, rfl⟩ := h
    rw [rejection] at hd
    split at hd
    next =>
      cases hd
      intro heq
      exact place_ne_global hkind title name (SemanticError.duplicateDeclaration.inj heq).2
    next => cases hd

section Places

variable {kind : ScopeKind} (hkind : kind ≠ .global) (title : String)
include hkind

theorem inside_of_names (earlier xs : List Declaration) :
    ∀ item ∈ names (kind.place title) earlier xs, item.IsInside := by
  induction xs generalizing earlier with
  | nil => exact fun _ h => absurd h List.not_mem_nil
  | cons x xs ih => exact List.forall_mem_cons.mpr ⟨⟨kind, title, hkind, rfl⟩, ih _⟩

theorem inside_of_entered (earlier xs : List Declaration) :
    ∀ item ∈ entered (kind.place title) earlier xs, item.IsInside := by
  induction xs generalizing earlier with
  | nil => exact fun _ h => absurd h List.not_mem_nil
  | cons x xs ih =>
    refine List.forall_mem_append.mpr ⟨fun item hitem => ?_,
      List.forall_mem_cons.mpr ⟨⟨kind, title, hkind, rfl⟩, ih _⟩⟩
    obtain ⟨t, -, rfl⟩ := List.mem_map.mp hitem
    trivial

end Places

end Item

mutual

theorem Stmt.inside_of_items : ∀ (s : Stmt ε), ∀ item ∈ s.items, item.IsInside
  | .localVar .. => by
    rw [Stmt.items]
    exact List.forall_mem_singleton.mpr trivial
  | .block body _ _ => by
    rw [Stmt.items]
    exact Stmt.inside_of_itemsOf (by decide) "" [] body
  | .ifThen _ body _ => by
    rw [Stmt.items]
    exact Stmt.inside_of_items body
  | .ifElse _ body otherwise _ => by
    rw [Stmt.items]
    exact List.forall_mem_append.mpr
      ⟨Stmt.inside_of_items body, Stmt.inside_of_items otherwise⟩
  | .while_ _ body _ => by
    rw [Stmt.items]
    exact Stmt.inside_of_items body
  | .assign .. | .call .. | .return_ .. | .break_ _ | .continue_ _ => by
    rw [Stmt.items]
    · exact fun _ h => absurd h List.not_mem_nil
    all_goals simp

theorem Stmt.inside_of_itemsOf {kind : ScopeKind} (hkind : kind ≠ .global) (title : String)
    (earlier : List Declaration) :
    ∀ (ss : List (Stmt ε)), ∀ item ∈ Stmt.itemsOf (kind.place title) earlier ss, item.IsInside
  | [] => fun _ h => absurd h List.not_mem_nil
  | s :: ss => by
    rw [Stmt.itemsOf]
    exact List.forall_mem_append.mpr ⟨List.forall_mem_append.mpr
      ⟨Stmt.inside_of_items s, Item.inside_of_names hkind title earlier s.locals⟩,
      Stmt.inside_of_itemsOf hkind title (earlier ++ s.locals) ss⟩

end

theorem Method.inside_of_items (m : Method ε) : ∀ item ∈ m.items, item.IsInside := by
  have hmethod : ScopeKind.method ≠ .global := by decide
  exact List.forall_mem_append.mpr
    ⟨List.forall_mem_cons.mpr ⟨trivial, Item.inside_of_entered hmethod m.name [] _⟩,
      Stmt.inside_of_itemsOf hmethod m.name _ m.form.body⟩

theorem Method.inside_of_itemsOf {kind : ScopeKind} (hkind : kind ≠ .global) (title : String)
    (earlier : List Declaration) (ms : List (Method ε)) :
    ∀ item ∈ Method.itemsOf (kind.place title) earlier ms, item.IsInside := by
  induction ms generalizing earlier with
  | nil => exact fun _ h => absurd h List.not_mem_nil
  | cons m ms ih =>
    exact List.forall_mem_append.mpr ⟨m.inside_of_items,
      List.forall_mem_cons.mpr ⟨⟨kind, title, hkind, rfl⟩, ih _⟩⟩

/-- Whatever a class declares is inside of the global scope. -/
theorem ClassDecl.inside_of_items (c : ClassDecl ε) : ∀ item ∈ c.items, item.IsInside := by
  have hclass : ScopeKind.class_ ≠ .global := by decide
  exact List.forall_mem_append.mpr ⟨Item.inside_of_entered hclass c.name [] _,
    Method.inside_of_itemsOf hclass c.name _ c.methods⟩

/-- Of a name that is taken, every further class of that name is reported. -/
theorem Item.filter_names_of_taken {declared : List String} {place n : String}
    {earlier : List Declaration} (htaken : (kept declared earlier).any (·.name == n) = true)
    (cs : List (ClassDecl ε)) :
    ((Item.names place earlier (cs.map ClassDecl.declaration)).filterMap
        (·.rejection declared)).filter (·.error = .duplicateDeclaration n place) =
      (cs.filter (·.name = n)).map fun c => ⟨.duplicateDeclaration n place, c.line⟩ := by
  induction cs generalizing earlier with
  | nil => rfl
  | cons c cs ih =>
    have hlater : (kept declared (earlier ++ [c.declaration])).any (·.name == n) = true := by
      rw [kept_append, any_foldl_keepFirst, List.any_append, htaken, Bool.true_or]
    have hreview : (Item.name c.declaration place earlier).rejection declared =
        if (kept declared earlier).any (·.name == c.name) then
          some ⟨.duplicateDeclaration c.name place, c.line⟩
        else none :=
      rejection_name_of_resolvable rfl place earlier
    rw [List.map_cons, names, List.filterMap_cons, hreview]
    by_cases hname : c.name = n
    · subst hname
      simp only [htaken, if_true]
      rw [List.filter_cons_of_pos (by simp), List.filter_cons_of_pos (by simp), List.map_cons,
        ih hlater]
    · rw [List.filter_cons_of_neg (l := cs) (by simpa using hname)]
      split
      next => exact ih hlater
      next d hd =>
        split at hd
        next =>
          cases hd
          rw [List.filter_cons_of_neg (by simpa using hname)]
          exact ih hlater
        next => cases hd

/-! ## The tables -/

/-- What the tables of a program that has a name come to with a library class in front. -/
structure LibraryFirst (library : ClassDecl Expr) (p : Program Expr) (name : String)
    (t : SymbolTables) : Prop where
  /-- The class has the first key after the global scope. Its symbols are static methods, and
  its children the scopes of its methods, before those of classes that extend it. -/
  scope : ∃ s, t.scopes.get? 1 = some s ∧ s.kind = .class_ ∧ s.name = libraryName ∧
    s.parent = some t.globalScope ∧
    (∀ x ∈ s.symbols, x.kind = .staticMethod ∧ ∃ m ∈ library.methods, x.name = m.name) ∧
    ∃ heirs, s.children = List.range' 2 library.methods.length ++ heirs ∧ heirs ⊆ t.classScopes
  /-- A method has its parameters, and nothing inside. -/
  method : ∀ i m, library.methods[i]? = some m → ∃ s, t.scopes.get? (2 + i) = some s ∧
    s.kind = .method ∧ s.name = m.name ∧ s.parent = some 1 ∧ s.children = [] ∧
    ∀ x ∈ s.symbols, x.kind = .parameter ∧ ∃ f ∈ m.formals, x.name = f.name
  /-- It has the first id that is not one of a primitive type. -/
  entry : t.types.entry? 6 = some (.class_ libraryName)
  /-- Its name means it, whoever is asked. -/
  classScope : (Session.ofTables t).perform (.classScope libraryName) =
    .ok (Session.ofTables t, .key (some 1))
  lookupClass : t.types.lookupClass libraryName = some 6
  symbol : t.scopes.lookupLocal t.globalScope libraryName =
    some ⟨libraryName, .class_, 6, library.line⟩
  /-- A class of the program that has this name too has a key and an id all the same. -/
  namesake : ∀ (i : Nat) c, p.classes[i]? = some c → c.name = libraryName → ∃ key s id,
    t.classScopes[i + 1]? = some key ∧ key ≠ 1 ∧ t.scopes.get? key = some s ∧
    s.kind = .class_ ∧ s.name = libraryName ∧
    (t.types.idsOf .class_)[i + 1]? = some id ∧ id ≠ 6 ∧
    t.types.entry? id = some (.class_ libraryName)
  keys : t.classScopes.Nodup
  ids : (t.types.idsOf .class_).Nodup
  /-- These classes are reported, and nothing else of that name in the global scope. -/
  reports : t.diagnostics.filter
      (·.error = .duplicateDeclaration libraryName (ScopeKind.global.place name)) =
    (p.classes.filter (·.name = libraryName)).map fun c =>
      ⟨.duplicateDeclaration libraryName (ScopeKind.global.place name), c.line⟩

namespace SymbolTables

open Program

/-- The first class of a program is what its name means in the global scope. -/
theorem lookupLocal_zero_precededBy (p : Program ε) (c : ClassDecl ε) (name : String) :
    (ofProgram (p.precededBy c) name).1.scopes.lookupLocal 0 c.name =
      some ⟨c.name, .class_, 6, c.line⟩ := by
  let declared := (p.precededBy c).declared
  have hglobal : (_, 0) ∈ (p.precededBy c).loose name := mem_loose_iff.mpr (.inl ⟨rfl, rfl⟩)
  obtain ⟨s, hs, -, -, hsymbols⟩ := get?_ofProgram (p.precededBy c) name hglobal
  have hone : (kept declared [c.declaration]).find? (·.name == c.name) = some c.declaration :=
    List.find?_cons_of_pos (beq_self_eq_true c.name)
  have hfirst : (kept declared ([c.declaration] ++ p.classes.map ClassDecl.declaration)).find?
      (·.name == c.name) = some c.declaration := by
    rw [kept_append]
    exact find?_foldl_keepFirst hone
  rw [Arena.lookupLocal, hs, Option.bind_some, Scope.lookup, hsymbols, List.find?_map]
  refine (congrArg (Option.map _) hfirst).trans ?_
  show some (Symbol.mk c.name .class_ (((ofProgram _ name).1.types.lookupClass c.name).getD 0)
    c.line) = _
  rw [lookupClass_ofProgram, denoted?_precededBy_self]
  rfl

/-- A class behind the first one has a key and an id of its own, whatever it is called. -/
theorem exists_namesake (p : Program ε) (first : ClassDecl ε) {i : Nat} {c : ClassDecl ε}
    (hc : p.classes[i]? = some c) {title : String} (htitle : c.name = title) (name : String) :
    ∃ key s id, (ofProgram (p.precededBy first) name).1.classScopes[i + 1]? = some key ∧
      key ≠ 1 ∧ (ofProgram (p.precededBy first) name).1.scopes.get? key = some s ∧
      s.kind = .class_ ∧ s.name = title ∧
      ((ofProgram (p.precededBy first) name).1.types.idsOf .class_)[i + 1]? = some id ∧ id ≠ 6 ∧
      (ofProgram (p.precededBy first) name).1.types.entry? id = some (.class_ title) := by
  have hi : i + 1 < (p.precededBy first).classes.length :=
    Nat.succ_lt_succ (List.getElem?_eq_some_iff.mp hc).1
  have hregion : (_, (p.precededBy first).classKey (i + 1)) ∈ (p.precededBy first).loose name :=
    mem_loose_iff.mpr (.inr ⟨i + 1, c, 0, _, hc, rfl, rfl, rfl⟩)
  obtain ⟨s, hs, hkind, hname, -⟩ := get?_ofProgram _ name hregion
  refine ⟨_, s, classId (i + 1), ?_, fun hkey => ?_, hs, hkind, hname.trans htitle, ?_,
    fun hid => ?_, ?_⟩
  · rw [ofProgram_classScopes]
    exact (p.precededBy first).getElem?_classKeys hi
  · have hzero := (p.precededBy first).classKey_inj hi (Nat.succ_pos _)
      (hkey.trans classKey_zero_precededBy.symm)
    cases hzero
  · rw [classIds_ofProgram, List.getElem?_map, List.getElem?_range hi, Option.map_some]
  · have hzero : i + 1 = 0 := classId_inj hid
    cases hzero
  · rw [← htitle]
    exact entry?_classId (p.precededBy first) name hc

section Library

variable {library : ClassDecl Expr} (h : library.IsLibrary) (p : Program Expr) (name : String)
include h

/-- The scope of the library class. -/
theorem exists_libraryScope :
    ∃ s, (ofProgram (p.precededBy library) name).1.scopes.get? 1 = some s ∧ s.kind = .class_ ∧
      s.name = libraryName ∧ s.parent = some 0 ∧
      (∀ x ∈ s.symbols, x.kind = .staticMethod ∧ ∃ m ∈ library.methods, x.name = m.name) ∧
      ∃ heirs, s.children = List.range' 2 library.methods.length ++ heirs ∧
        heirs ⊆ (p.precededBy library).classKeys := by
  have hregion := library_mem_loose h p name
  obtain ⟨s, hs, hkind, hname, hsymbols⟩ := get?_ofProgram _ name hregion
  refine ⟨s, hs, hkind, hname, ?_, fun x hx => ?_,
    (p.precededBy library).placedUnder (p.precededBy library).classes.length 1, ?_,
    fun key hkey => ?_⟩
  · rw [Arena.parent_eq hs, ← parentKey_zero_precededBy h.superclass, ← classKey_zero_precededBy]
    exact parentOf_classKey (p.precededBy library) name (Nat.succ_pos _)
  · rw [hsymbols] at hx
    obtain ⟨y, hy, rfl⟩ := List.mem_map.mp hx
    obtain ⟨m, hm, rfl⟩ := List.mem_map.mp (mem_of_mem_kept hy).1
    exact ⟨m.kind_declaration_of_isLibrary (h.methods m hm), m, hm, rfl⟩
  · rw [Arena.children_eq hs]
    exact childrenOf_ofProgram _ name hregion
  · obtain ⟨i, hi, rfl⟩ := List.mem_map.mp hkey
    exact (p.precededBy library).classKey_mem (List.mem_range.mp (List.mem_filter.mp hi).1)

/-- The scope of a library method. -/
theorem exists_libraryMethodScope {i : Nat} {m : Method Expr}
    (hm : library.methods[i]? = some m) :
    ∃ s, (ofProgram (p.precededBy library) name).1.scopes.get? (2 + i) = some s ∧
      s.kind = .method ∧ s.name = m.name ∧ s.parent = some 1 ∧ s.children = [] ∧
      ∀ x ∈ s.symbols, x.kind = .parameter ∧ ∃ f ∈ m.formals, x.name = f.name := by
  have hregion := libraryMethod_mem_loose h p name hm
  obtain ⟨s, hs, hkind, hname, hsymbols⟩ := get?_ofProgram _ name hregion
  refine ⟨s, hs, hkind, hname, ?_, ?_, fun x hx => ?_⟩
  · rw [Arena.parent_eq hs]
    refine parentOf_of_notMem _ name hregion fun hmem => ?_
    have hmethod := kind_of_outer_eq_none hregion hmem
    cases hmethod
  · rw [Arena.children_eq hs, childrenOf_ofProgram _ name hregion]
    refine List.map_eq_nil_iff.mpr (List.filter_eq_nil_iff.mpr fun x _ hx => ?_)
    have hmethod := parentKey_mayHold hregion (of_decide_eq_true hx)
    rcases hmethod with hmethod | hmethod <;> cases hmethod
  · rw [hsymbols] at hx
    obtain ⟨y, hy, rfl⟩ := List.mem_map.mp hx
    obtain ⟨f, hf, rfl⟩ := List.mem_map.mp (mem_of_mem_kept hy).1
    exact ⟨rfl, f, hf, rfl⟩

/-- Classes of the same name are reported, once each, and nothing else of that name in the
global scope. -/
theorem namesakes_reported :
    (ofProgram (p.precededBy library) name).1.diagnostics.filter
        (·.error = .duplicateDeclaration libraryName (ScopeKind.global.place name)) =
      (p.classes.filter (·.name = libraryName)).map fun c =>
        ⟨.duplicateDeclaration libraryName (ScopeKind.global.place name), c.line⟩ := by
  let q := p.precededBy library
  let taken := SemanticError.duplicateDeclaration libraryName (ScopeKind.global.place name)
  -- The library class itself is not reported, and takes the name.
  have hnames : ((Item.names (ScopeKind.global.place name) []
      (q.classes.map ClassDecl.declaration)).filterMap (·.rejection q.declared)).filter
        (·.error = taken) =
      (p.classes.filter (·.name = libraryName)).map fun c => ⟨taken, c.line⟩ := by
    have htaken : (kept q.declared [library.declaration]).any (·.name == libraryName) = true := by
      rw [← h.name]
      exact List.any_cons.trans (Bool.or_eq_true_iff.mpr (.inl (beq_self_eq_true _)))
    exact Item.filter_names_of_taken htaken p.classes
  have hinside : ((q.classes.flatMap ClassDecl.items).filterMap
      (·.rejection q.declared)).filter (·.error = taken) = [] := by
    refine List.filter_eq_nil_iff.mpr fun d hd htaken => ?_
    obtain ⟨item, hitem, hrejected⟩ := List.mem_filterMap.mp hd
    obtain ⟨c, -, hitem⟩ := List.mem_flatMap.mp hitem
    exact (c.inside_of_items item hitem).error_ne hrejected _ name (of_decide_eq_true htaken)
  have hlinks : ((List.range q.classes.length).filterMap q.linkFault).filter
      (·.error = taken) = [] := by
    refine List.filter_eq_nil_iff.mpr fun d hd htaken => ?_
    obtain ⟨i, -, hfault⟩ := List.mem_filterMap.mp hd
    have hlinkage := linkFault_isLinkage hfault
    rw [of_decide_eq_true htaken] at hlinkage
    cases hlinkage
  rw [ofProgram_diagnostics, (linked_linkedTo q name (Nat.le_refl _)).diagnostics_eq,
    Program.items, List.filterMap_append, List.filter_append, List.filter_append, hnames, hinside,
    hlinks, List.append_nil, List.append_nil]

/-- A library class in front of a program is the first of the classes, whatever the program
has under its name. -/
theorem libraryFirst :
    LibraryFirst library p name (ofProgram (p.withLibrary (some library)) name).1 where
  scope := by
    rw [ofProgram_classScopes]
    exact exists_libraryScope h p name
  method i m hm := exists_libraryMethodScope h p name hm
  entry := by
    rw [← h.name]
    exact entry?_classId _ name (i := 0) rfl
  classScope := by
    obtain ⟨s, hs, -, hname, -⟩ := exists_libraryScope h p name
    have hnamed : ((ofProgram (p.precededBy library) name).1.scopes.nameOf 1 == libraryName) =
        true := by
      rw [Arena.nameOf, hs]
      exact beq_iff_eq.mpr hname
    have hkeys := (ofProgram_classScopes (p.precededBy library) name).trans classKeys_precededBy
    refine congrArg (fun key => Except.ok (_, Answer.key key)) ?_
    exact (congrArg (List.find? _) hkeys).trans (List.find?_cons_of_pos hnamed)
  lookupClass := by
    rw [← h.name, lookupClass_ofProgram]
    exact congrArg (Option.map classId) denoted?_precededBy_self
  symbol := by
    rw [← h.name]
    exact lookupLocal_zero_precededBy p library name
  namesake i c hc hname := exists_namesake p library hc hname name
  keys := by
    rw [ofProgram_classScopes]
    exact Outline.nodup_keys _ _
  ids := by
    rw [classIds_ofProgram]
    exact List.nodup_range.map fun _ _ => classId_inj
  reports := namesakes_reported h p name

end Library

end SymbolTables

/-- A text gives a library class exactly if it parses, and is a single class that is written
as one. A program that parses compiles with such a class in front, and there the class is
the first one, whatever classes the program has. -/
theorem library_stands_first (path text : String) (library : ClassDecl Expr) :
    (loadLibrary path text = .ok library ↔
      Program.parse text = .ok { classes := [library] } ∧
        ∃ tree, (Reading.of text).result = .ok [tree] ∧ tree.IsSignature) ∧
    (∀ bytes, fileText bytes = .ok text →
      (LibraryChoice.file ⟨path, some bytes⟩).load = (loadLibrary path text).map some) ∧
    ∀ (choice : LibraryChoice) (source name : String) (p : Program Expr),
      choice.load = .ok (some library) → Program.parse source = .ok p →
      ∃ c, compile source name choice = .ok c ∧ LibraryFirst library p name c.tables := by
  refine ⟨loadLibrary_iff, fun bytes hbytes => ?_, fun choice source name p hload hp => ?_⟩
  · simp only [LibraryChoice.load, SourceFile.loadLibrary, hbytes]
  · obtain ⟨log, hcompile⟩ := compile_eq hp hload name
    obtain ⟨path, text, hread⟩ := exists_loadLibrary hload
    exact ⟨_, hcompile, SymbolTables.libraryFirst (loadLibrary_ok hread) p name⟩

/-- A library that declares a method twice, and one of an unknown type; and a program that has
two classes of its name, one of them below it, and another class below it with a method of
one of its names. -/
theorem library_stands_first_namesakes :
    let text := "class Library \x7b static void f(int i); static X g(); static int f(); \x7d"
    let source := "class A extends Library \x7b static int f() \x7b return 1; \x7d \x7d " ++
      "class Library extends Library \x7b int x; \x7d class Library \x7b \x7d"
    ∃ library p c, loadLibrary "lib.sig" text = .ok library ∧ Program.parse source = .ok p ∧
      p.classes.map (·.name) = ["A", libraryName, libraryName] ∧
      compile source "a.ic" (.file ⟨"lib.sig", some (text.toList.map (·.toNat.toUInt8))⟩) = .ok c ∧
      LibraryFirst library p "a.ic" c.tables := by
  intro text source
  have hbytes : fileText (text.toList.map (·.toNat.toUInt8)) = .ok text := by decide +kernel
  have hok : (loadLibrary "lib.sig" text).isOk = true := by decide +kernel
  have hnames : (Program.parse source).toOption.map (fun p => p.classes.map (·.name)) =
      some ["A", libraryName, libraryName] := by
    decide +kernel
  cases hread : loadLibrary "lib.sig" text with
  | error e =>
    rw [hread] at hok
    cases hok
  | ok library =>
    cases hp : Program.parse source with
    | error e =>
      rw [hp] at hnames
      cases hnames
    | ok p =>
      rw [hp] at hnames
      obtain ⟨-, hload, hfirst⟩ := library_stands_first "lib.sig" text library
      have hlibrary := hload _ hbytes
      rw [hread] at hlibrary
      obtain ⟨c, hc, htables⟩ := hfirst _ source "a.ic" p hlibrary hp
      exact ⟨library, p, c, rfl, rfl, Option.some.inj hnames, hc, htables⟩

end IcFront
