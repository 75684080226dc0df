import IcFront.Proofs.Tables.Asked
import IcFront.Proofs.Tables.Described
import IcFront.Proofs.Tables.InFront
import IcFront.Proofs.Tables.Nodes
import IcFront.Proofs.Types.Legible

/-!
# One id for each type

In the tables of a program that was read from a text, ids and types are one to one, all
over the program (`Canonical`). Whoever asks for a type gets the id that it has in the
finished table (`answered_iff`). The table describes it as it was spelled, and spellings
tell types apart (`TypeRef.eq_of_spelling`), so that two types have one id only if they
have the same base and as many brackets (`idOf_eq_iff`). For signatures the spellings are
those of the types in them (`spellings_of_signature`).

The parameters of a method are looked up twice, for its signature and for its scope. Both
times they get the ids of their types, so that the symbols in the scope have the ids
listed in the signature (`parameters_eq`).
-/

namespace IcFront

variable {α ε : Type}

/-! ## Lists of which the first wins -/

theorem mem_foldl_keepFirst {name : α → String} {kept xs : List α} {x : α}
    (h : x ∈ xs.foldl (keepFirst name) kept) : x ∈ kept ∨ x ∈ xs := by
  induction xs generalizing kept with
  | nil => exact .inl h
  | cons y ys ih =>
    rcases ih h with hkept | hlater
    · unfold keepFirst at hkept
      split at hkept
      next => exact .inl hkept
      next =>
        rcases List.mem_append.mp hkept with hearlier | hnew
        · exact .inl hearlier
        · exact .inr (List.mem_singleton.mp hnew ▸ List.mem_cons_self)
    · exact .inr (List.mem_cons_of_mem _ hlater)

theorem mem_of_mem_kept {declared : List String} {xs : List Declaration} {x : Declaration}
    (h : x ∈ kept declared xs) : x ∈ xs ∧ x.resolvable declared = true := by
  rcases mem_foldl_keepFirst h with hnone | hmem
  · cases hnone
  · exact List.mem_filter.mp hmem

/-- What is kept later does not show where only earlier things are looked at. -/
theorem filter_foldl_keepFirst {name : α → String} {q : α → Bool} {kept xs : List α}
    (h : ∀ x ∈ xs, q x = false) :
    (xs.foldl (keepFirst name) kept).filter q = kept.filter q := by
  induction xs generalizing kept with
  | nil => rfl
  | cons x xs ih =>
    rw [List.foldl_cons, ih fun y hy => h y (List.mem_cons_of_mem _ hy)]
    unfold keepFirst
    split
    next => rfl
    next =>
      rw [List.filter_append, List.filter_singleton, h x List.mem_cons_self, cond_false,
        List.append_nil]

/-! ## Types of regions -/

/-- The regions of a program declare nothing of other types than it mentions. -/
theorem Program.types_of_regions {p : Program ε} {name : String} {r : Region}
    (hr : r ∈ p.regions name) : Declaration.typesOf r.declarations ⊆ p.types := by
  have hclasses : ∀ (cs : List (ClassDecl ε)) (key : Nat),
      ∀ r ∈ Outline.regionsOf (some 0) key (cs.map ClassDecl.outline),
        Declaration.typesOf r.declarations ⊆ cs.flatMap ClassDecl.types := by
    intro cs
    induction cs with
    | nil => exact fun _ _ hr => absurd hr List.not_mem_nil
    | cons c cs ih =>
      intro key r hr
      rw [List.map_cons, Outline.regionsOf, List.mem_append] at hr
      rw [List.flatMap_cons]
      rcases hr with hfirst | hrest
      · exact List.subset_append_of_subset_left _ (c.types_of_regions _ _ r hfirst)
      · exact List.subset_append_of_subset_right _ (ih _ r hrest)
  rcases List.mem_cons.mp hr with rfl | hr
  · rw [Declaration.typesOf_classes]
    exact List.nil_subset _
  · exact hclasses p.classes 1 r hr

theorem TypeRef.known_of_resolvable {declared : List String} {x : Declaration}
    (h : x.resolvable declared = true) {type : TypeRef} (ht : type ∈ x.type.types) :
    type.isKnown declared = true := List.all_eq_true.mp h type ht

namespace SymbolTables

/-! ## What the construction answers -/

/-- Somewhere in the construction of the tables of a program a type is asked for, and this
is the id that comes back. -/
def Answered (p : Program ε) (name : String) (type : TypeRef) (id : TypeId) : Prop :=
  ∃ before after, p.asks = before ++ .type type :: after ∧
    (((registered p name).1.types.askAll before).look type).2 = some id

section Answers

variable {p : Program ε} {name : String} {type type' : TypeRef} {id : TypeId}

/-- The types that are answered are the known ones that the program mentions, and the
answers are the ids they have in the finished table. -/
theorem answered_iff : Answered p name type id ↔
    type ∈ p.types ∧ type.isKnown p.declared = true ∧
      id = (ofProgram p name).1.types.idOf type := by
  constructor
  · intro hanswered
    obtain ⟨before, after, hasks, hlook⟩ := hanswered
    have hmem : type ∈ p.types :=
      Program.mem_asks.mp (hasks ▸ List.mem_append_right _ List.mem_cons_self)
    have hK := (registered_knows p name).of_grows (TypeTable.grows_askAll _ before)
    have hfind := Draft.find_eq { types := (registered p name).1.types.askAll before } type hK
      (.refl _)
    cases hk : type.isKnown p.declared with
    | false =>
      rw [hk, if_neg Bool.noConfusion] at hfind
      exact absurd (hfind.symm.trans hlook) (by simp)
    | true =>
      exact ⟨hmem, rfl, Option.some.inj (hlook.symm.trans (found_of_asked name hasks hk))⟩
  · intro hmem
    obtain ⟨hmem, hk, rfl⟩ := hmem
    obtain ⟨before, after, hasks⟩ := List.append_of_mem (Program.mem_asks.mpr hmem)
    exact ⟨before, after, hasks, found_of_asked name hasks hk⟩

/-- Types that look like types have one id only if they are one type. -/
theorem idOf_eq_iff (hmem : type ∈ p.types) (hk : type.isKnown p.declared = true)
    (hw : type.Written) (hmem' : type' ∈ p.types) (hk' : type'.isKnown p.declared = true)
    (hw' : type'.Written) :
    (ofProgram p name).1.types.idOf type = (ofProgram p name).1.types.idOf type' ↔
      type.base.name = type'.base.name ∧ type.dimension = type'.dimension := by
  have hsound := ofProgram_types_sound p name
  constructor
  · intro heq
    have hspelling := hsound.describe_idOf (holds_idOf name hmem hk)
    rw [heq, hsound.describe_idOf (holds_idOf name hmem' hk')] at hspelling
    obtain ⟨hbase, hdimension⟩ :=
      TypeRef.eq_of_spelling hw hw' (Except.ok.inj hspelling).symm
    exact ⟨congrArg BaseType.name hbase, hdimension⟩
  · intro hsame
    obtain ⟨hbase, hdimension⟩ := hsame
    rw [TypeTable.idOf, TypeTable.idOf, BaseType.eq_of_name hw.base hw'.base hbase, hdimension]

/-! ## Symbols -/

variable {r r' : Region} {x x' : Declaration}

/-- A kept declaration has a type of the table. -/
theorem holds_of_kept (hr : r ∈ p.regions name) (hx : x ∈ kept p.declared r.declarations) :
    (ofProgram p name).1.types.Holds (x.symbol (ofProgram p name).1.types).type := by
  obtain ⟨k, hk⟩ := List.mem_iff_getElem?.mp hr
  obtain ⟨s, hs, -, -, hsymbols⟩ := get?_regions hk
  have hmem : x.symbol (ofProgram p name).1.types ∈ s.symbols :=
    hsymbols ▸ List.mem_map_of_mem hx
  exact ofProgram_holds p name (Arena.mem_symbols.mpr ⟨k, s, hs, hmem⟩)

theorem describe_of_kept (hr : r ∈ p.regions name) (hx : x ∈ kept p.declared r.declarations) :
    (ofProgram p name).1.types.describe (x.symbol (ofProgram p name).1.types).type =
      .ok (x.type.spelling x.name) :=
  (ofProgram_types_sound p name).describe_symbol (holds_of_kept hr hx)

/-- The types of a kept declaration are known types of the program. -/
theorem types_of_kept (hr : r ∈ p.regions name) (hx : x ∈ kept p.declared r.declarations)
    (ht : type ∈ x.type.types) : type ∈ p.types ∧ type.isKnown p.declared = true := by
  obtain ⟨hmem, hres⟩ := mem_of_mem_kept hx
  exact ⟨Program.types_of_regions hr (List.mem_flatMap.mpr ⟨x, hmem, ht⟩),
    TypeRef.known_of_resolvable hres ht⟩

/-- Methods have one id only if their signatures are spelled the same. -/
theorem signature_eq_iff (hw : ∀ type ∈ p.types, type.Written) (hr : r ∈ p.regions name)
    (hx : x ∈ kept p.declared r.declarations) (hr' : r' ∈ p.regions name)
    (hx' : x' ∈ kept p.declared r'.declarations) {result result' : TypeRef}
    {parameters parameters' : List TypeRef} (hm : x.type = .method result parameters)
    (hm' : x'.type = .method result' parameters') :
    (x.symbol (ofProgram p name).1.types).type = (x'.symbol (ofProgram p name).1.types).type ↔
      x.type.spelling x.name = x'.type.spelling x'.name := by
  constructor
  · intro heq
    have hdescribe := describe_of_kept hr hx
    rw [heq, describe_of_kept hr' hx'] at hdescribe
    exact (Except.ok.inj hdescribe).symm
  · intro heq
    have hall : ∀ type ∈ result :: parameters,
        type ∈ p.types ∧ type.isKnown p.declared = true :=
      fun type ht => types_of_kept hr hx (hm ▸ ht)
    have hall' : ∀ type ∈ result' :: parameters',
        type ∈ p.types ∧ type.isKnown p.declared = true :=
      fun type ht => types_of_kept hr' hx' (hm' ▸ ht)
    -- Types that are spelled the same have one id.
    have hid : ∀ type ∈ result :: parameters, ∀ type' ∈ result' :: parameters',
        type.spelling = type'.spelling →
          (ofProgram p name).1.types.idOf type = (ofProgram p name).1.types.idOf type' := by
      intro type ht type' ht' hspelling
      obtain ⟨hmem, hk⟩ := hall type ht
      obtain ⟨hmem', hk'⟩ := hall' type' ht'
      obtain ⟨hbase, hdimension⟩ :=
        TypeRef.eq_of_spelling (hw type hmem) (hw type' hmem') hspelling
      exact (idOf_eq_iff hmem hk (hw type hmem) hmem' hk' (hw type' hmem')).mpr
        ⟨congrArg BaseType.name hbase, hdimension⟩
    rw [hm, hm'] at heq
    obtain ⟨hparameters, hresult⟩ := spellings_of_signature
      (fun t ht => hw t (hall t (List.mem_cons_of_mem _ ht)).1)
      (fun t ht => hw t (hall' t (List.mem_cons_of_mem _ ht)).1) heq
    have hids := map_eq_map_of_imp (fun t ht t' ht' => hid t (List.mem_cons_of_mem _ ht) t'
      (List.mem_cons_of_mem _ ht')) hparameters
    rw [Declaration.symbol, Declaration.symbol, hm, hm', DeclaredType.id, DeclaredType.id, hids,
      hid _ List.mem_cons_self _ List.mem_cons_self hresult]

/-! ## Parameters -/

/-- The parameters that a method keeps, with their ids, are the first of each name. -/
theorem parameters_eq (T : TypeTable) {declared : List String} {fs : List Formal}
    {locals : List Declaration} (hfs : ∀ f ∈ fs, f.type.isKnown declared = true)
    (hlocals : ∀ x ∈ locals, x.kind = .localVariable) :
    (((kept declared (fs.map Formal.declaration ++ locals)).map (·.symbol T)).filter
        (·.kind == .parameter)).map (fun s => (s.name, s.type)) =
      firstWins Prod.fst ((fs.map (·.name)).zip (fs.map fun f => T.idOf f.type)) := by
  have hresolvable : (fs.map Formal.declaration).filter (·.resolvable declared) =
      fs.map Formal.declaration := by
    refine List.filter_eq_self.mpr fun x hx => ?_
    obtain ⟨f, hf, rfl⟩ := List.mem_map.mp hx
    simp [Declaration.resolvable, Formal.declaration, DeclaredType.types, hfs f hf]
  have hparameter : ∀ x ∈ kept declared (fs.map Formal.declaration),
      (x.kind == .parameter) = true := by
    intro x hx
    obtain ⟨f, -, rfl⟩ := List.mem_map.mp (mem_of_mem_kept hx).1
    rfl
  have hlocal : ∀ x ∈ locals.filter (·.resolvable declared), (x.kind == .parameter) = false := by
    intro x hx
    rw [hlocals x (List.mem_filter.mp hx).1]
    rfl
  have hkept : (kept declared (fs.map Formal.declaration ++ locals)).filter
      (·.kind == .parameter) = firstWins (·.name) (fs.map Formal.declaration) := by
    rw [kept_append, filter_foldl_keepFirst hlocal, List.filter_eq_self.mpr hparameter, kept,
      hresolvable]
  have hsymbol : ((·.kind == .parameter) ∘ Declaration.symbol T) =
      fun x : Declaration => x.kind == .parameter := rfl
  have hfirst := foldl_keepFirst_map (·.name) Prod.fst
    (fun x : Declaration => (x.name, (x.symbol T).type)) (fun _ => rfl) []
    (fs.map Formal.declaration)
  rw [List.filter_map, hsymbol, hkept, List.map_map, firstWins, firstWins, List.zip_map']
  rw [List.map_map] at hfirst
  exact hfirst.symm

theorem Stmt.kind_of_locals : ∀ s : Stmt ε, ∀ x ∈ s.locals, x.kind = .localVariable
  | .localVar .., x, hx => by
    rw [Stmt.locals, List.mem_singleton] at hx
    rw [hx]
  | .ifThen _ body _, x, hx => by
    rw [Stmt.locals] at hx
    exact kind_of_locals body x hx
  | .ifElse _ body otherwise _, x, hx => by
    rw [Stmt.locals, List.mem_append] at hx
    rcases hx with hbody | hotherwise
    · exact kind_of_locals body x hbody
    · exact kind_of_locals otherwise x hotherwise
  | .while_ _ body _, x, hx => by
    rw [Stmt.locals] at hx
    exact kind_of_locals body x hx
  | .assign .., x, hx | .call .., x, hx | .return_ .., x, hx | .break_ _, x, hx
  | .continue_ _, x, hx | .block .., x, hx => by
    rw [Stmt.locals] at hx
    · exact absurd hx List.not_mem_nil
    all_goals simp

/-! ## Classes -/

/-- The entries of classes are those that come after the primitive types. -/
theorem class_entry?_iff {i : Nat} {className : String} : p.declared[i]? = some className ↔
    (ofProgram p name).1.types.entry? ((i : Int) + 6) = some (.class_ className) := by
  obtain ⟨more, hentries, hkind⟩ := entries_ofProgram p name
  have hid : (i : Int) + 6 = ((i + 5 : Nat) : Int) + 1 := by omega
  have hprims : (PrimitiveKind.all.map TypeEntry.primitive).length = 5 := rfl
  rw [hid, TypeTable.entry?_succ, hentries, List.getElem?_append_right (by omega), hprims,
    Nat.add_sub_cancel]
  by_cases hi : i < p.declared.length
  · rw [List.getElem?_append_left (by rwa [List.length_map]), List.getElem?_map]
    cases p.declared[i]? <;> simp
  · rw [List.getElem?_append_right (by rw [List.length_map]; omega)]
    constructor
    · intro hdeclared
      exact absurd (List.getElem?_eq_some_iff.mp hdeclared).1 hi
    · intro hentry
      exact absurd rfl (hkind _ (List.mem_of_getElem? hentry))

end Answers

/-! ## The main result -/

/-- Types and their ids are one to one in the tables of a program. -/
structure Canonical (p : Program ε) (name : String) (t : SymbolTables) (q : Program ε) : Prop where
  /-- Every symbol has a type that is described as it was spelled. -/
  described : ∀ k r, (p.regions name)[k]? = some r → ∃ s, t.scopes.get? k = some s ∧
    s.symbols = (kept p.declared r.declarations).map (·.symbol t.types) ∧
    ∀ x ∈ kept p.declared r.declarations,
      t.types.describe (x.symbol t.types).type = .ok (x.type.spelling x.name)
  /-- The types of the tables are what the construction asks for. -/
  asked : t.types.entries = ((registered p name).1.types.askAll p.asks).entries
  /-- Every known type that a declaration spells is asked for and gets an id. -/
  answered : ∀ type ∈ p.types, type.isKnown p.declared = true → ∃ id, Answered p name type id
  /-- A symbol has the id that was the answer for its type. -/
  symbols : ∀ r ∈ p.regions name, ∀ x ∈ kept p.declared r.declarations, ∀ type,
    x.type = .value type → Answered p name type (x.symbol t.types).type
  /-- Types have the same id only if they are the same. -/
  types : ∀ type id type' id', Answered p name type id → Answered p name type' id' →
    (id = id' ↔ type.base.name = type'.base.name ∧ type.dimension = type'.dimension)
  /-- Methods have the same id only if their signatures are spelled the same. -/
  signatures : ∀ r ∈ p.regions name, ∀ r' ∈ p.regions name,
    ∀ x ∈ kept p.declared r.declarations, ∀ x' ∈ kept p.declared r'.declarations,
    ∀ result parameters, x.type = .method result parameters →
    ∀ result' parameters', x'.type = .method result' parameters' →
      ((x.symbol t.types).type = (x'.symbol t.types).type ↔
        x.type.spelling x.name = x'.type.spelling x'.name)
  /-- The parameters in the scope of a method, the first of each name, have the ids that
  stand at their positions in the signature. -/
  parameters : ∀ c ∈ q.classes, ∀ m ∈ c.methods, m.declaration.resolvable p.declared = true →
    ∃ k s ids, m.scope = some k ∧ t.scopes.get? k = some s ∧
      t.types.entry? (m.declaration.symbol t.types).type =
        some (.method (t.types.idOf m.type) ids) ∧
      ids.length = m.formals.length ∧
      (s.symbols.filter (·.kind == .parameter)).map (fun s => (s.name, s.type)) =
        firstWins Prod.fst ((m.formals.map (·.name)).zip ids)
  /-- The class at a position has the id six greater, and no other type is a class. -/
  classes : ∀ (i : Nat) className, p.declared[i]? = some className ↔
    t.types.entry? ((i : Int) + 6) = some (.class_ className)
  /-- A class name means the first class of that name. -/
  first : ∀ className, t.types.lookupClass className =
    (p.declared.findIdx? (· == className)).map fun i : Nat => (i : Int) + 6
  /-- The parts of every type come before it. -/
  parts : ∀ (id : Int) e, t.types.entry? id = some e → ∀ part ∈ e.parts, 1 ≤ part ∧ part < id

/-- In the tables of a program that was read, types and ids are one to one. -/
theorem types_canonical {source : String} {p : Program Expr}
    (h : Program.parse source = .ok p) (name : String) :
    Canonical p name (ofProgram p name).1 (ofProgram p name).2 := by
  have hw := Program.written_of_parse h
  have hanswered : ∀ {type : TypeRef}, type ∈ p.types → type.isKnown p.declared = true →
      Answered p name type ((ofProgram p name).1.types.idOf type) :=
    fun hmem hk => answered_iff.mpr ⟨hmem, hk, rfl⟩
  constructor
  case described =>
    intro k r hr
    obtain ⟨s, hs, -, -, hsymbols⟩ := get?_regions hr
    exact ⟨s, hs, hsymbols, fun x hx => describe_of_kept (List.mem_of_getElem? hr) hx⟩
  case asked => exact ofProgram_entries p name
  case answered => exact fun type hmem hk => ⟨_, hanswered hmem hk⟩
  case symbols =>
    intro r hr x hx type htype
    have htypes : type ∈ x.type.types := by simp [htype, DeclaredType.types]
    obtain ⟨hmem, hk⟩ := types_of_kept hr hx htypes
    have hid : (x.symbol (ofProgram p name).1.types).type =
        (ofProgram p name).1.types.idOf type := by
      rw [Declaration.symbol, htype, DeclaredType.id]
    exact hid ▸ hanswered hmem hk
  case types =>
    intro type id type' id' hid hid'
    obtain ⟨hmem, hk, rfl⟩ := answered_iff.mp hid
    obtain ⟨hmem', hk', rfl⟩ := answered_iff.mp hid'
    exact idOf_eq_iff hmem hk (hw type hmem) hmem' hk' (hw type' hmem')
  case signatures =>
    intro r hr r' hr' x hx x' hx' result parameters hm result' parameters' hm'
    exact signature_eq_iff hw hr hx hr' hx' hm hm'
  case parameters =>
    intro c hc m hm hres
    obtain ⟨k, s, hk, hs, -, -, hsymbols⟩ := method_scope hc hm
    have hentry := signature_entry? (p := (ofProgram p name).2) name hc hm
      (by rwa [declared_ofProgram])
    rw [ofProgram_ofProgram] at hentry
    refine ⟨k, s, _, hk, hs, hentry, List.length_map _, ?_⟩
    rw [hsymbols]
    refine parameters_eq _ (fun f hf => ?_) fun x hx => ?_
    · exact TypeRef.known_of_resolvable hres
        (List.mem_cons_of_mem _ (List.mem_map_of_mem hf))
    · obtain ⟨s, -, hs⟩ := List.mem_flatMap.mp hx
      exact Stmt.kind_of_locals s x hs
  case classes => exact fun i className => class_entry?_iff
  case first => exact lookupClass_ofProgram p name
  case parts => exact ofProgram_types_sound p name

/-- Two classes of one name, parameters of one name, and types that are not declared. -/
theorem types_canonical_duplicates :
    let text := "class A \x7b int[] x; A f(int[] a, A a, C b) \x7b int[][] y; \x7d \x7d " ++
      "class A \x7b int[] x; static int[] g(A z, int[] z); \x7d"
    ∃ p : Program Expr, Program.parse text = .ok p ∧
      Canonical p "a.ic" (ofProgram p "a.ic").1 (ofProgram p "a.ic").2 := by
  intro text
  have hok : (Program.parse text).isOk = true := by decide +kernel
  cases hp : Program.parse text with
  | ok p => exact ⟨p, rfl, types_canonical hp "a.ic"⟩
  | error e =>
    rw [hp] at hok
    cases hok

end SymbolTables

end IcFront
