import IcFront.Proofs.Grammar.NamesRead
import IcFront.Proofs.Scopes.Listed
import IcFront.Proofs.Tables.TypeIdentity
import IcFront.Proofs.Tables.TypesListed

/-!
# Listings of the scopes of a program

The scopes of a program that was read from a text can be read back from their listing
(`readable_ofProgram`). Classes, methods, and what is declared have words for names; only the
program has a name of its own choice, which is that of the global scope. The spelling of a
type is on one line, and has a space in it only if the type is that of a method. So nothing in
a section looks like a separator, and two programs of one name have the same tree of scopes if
their listings are the same (`scope_listing_faithful`).
-/

namespace IcFront

/-- The line of a declaration that can be read can be read back. -/
theorem Declaration.Read.plain {x : Declaration} (h : x.Read)
    (hwritten : ∀ type ∈ x.type.types, type.Written)
    (hline : '\n' ∉ (x.type.spelling x.name).toList) :
    SymbolText.Plain ⟨x.kind, x.name, x.type.spelling x.name⟩ := by
  have hname : ∀ c, isWordChar c = false → c ∉ x.name.toList := fun c hc => h.name.not_mem hc
  obtain ⟨-, hsuits⟩ := h
  obtain ⟨name, kind, line, type⟩ := x
  cases type with
  | class_ => exact ⟨⟨hname _ rfl, hline⟩, fun _ => rfl, hname _ rfl, fun _ => hname _ rfl⟩
  | value type =>
    have hspace : ' ' ∉ type.spelling.toList := by
      intro hmem
      have hspelling := TypeRef.isSpelling_spelling (hwritten type (List.mem_singleton_self type))
      exact absurd (hspelling ' ' hmem) (by decide)
    exact ⟨⟨hname _ rfl, hline⟩, fun hkind => absurd hkind hsuits.1, hname _ rfl, fun _ => hspace⟩
  | method result parameters =>
    have hmethod : kind.isMethod = true := hsuits
    refine ⟨⟨hname _ rfl, hline⟩, fun hkind => ?_, hname _ rfl, fun hkind => ?_⟩
    · have hkind : kind = .class_ := hkind
      subst hkind
      cases hmethod
    · exact absurd (hmethod.symm.trans hkind) (by decide)

namespace SymbolTables

variable {source source' : String} {p p' : Program Expr} {name : String} {k : Nat} {s : Scope}

/-! ## Scopes and what lies around them -/

/-- Every scope is that of a region, and declares what the region keeps. -/
theorem exists_region (hs : (ofProgram p name).1.scopes.get? k = some s) :
    ∃ r ∈ p.regions name, s.kind = r.kind ∧ s.name = r.name ∧
      s.symbols = (kept p.declared r.declarations).map (·.symbol (ofProgram p name).1.types) := by
  have hlt := Arena.lt_size_of_get? hs
  have hlength : (p.regions name).length = (ofProgram p name).1.scopes.size := by
    rw [size_ofProgram]
    exact Outline.length_regions none 0 (p.outline name)
  rw [← hlength] at hlt
  obtain ⟨s', hs', hsame⟩ := get?_regions (List.getElem?_eq_getElem hlt)
  obtain rfl : s = s' := Option.some.inj (hs.symm.trans hs')
  exact ⟨_, List.getElem_mem hlt, hsame⟩

/-- What the parent of a scope is depends on what the scope is. -/
theorem mayHold_of_parentOf {o : Nat} (hs : (ofProgram p name).1.scopes.get? k = some s)
    (ho : (ofProgram p name).1.scopes.parentOf k = some o) :
    ∃ s', (ofProgram p name).1.scopes.get? o = some s' ∧ s'.kind.mayHold s.kind = true := by
  obtain ⟨s', hs'⟩ := Arena.get?_eq_some ((isTree_ofProgram p name).closed k o ho)
  refine ⟨s', hs', ?_⟩
  have hlinked := linked_linkedTo p name (Nat.le_refl p.classes.length)
  rw [ofProgram_scopes] at hs hs' ho
  exact hlinked.mayHold_of_parentOf hs' hs ho

theorem ne_global_of_mayHold {kind kind' : ScopeKind} (hhold : kind.mayHold kind' = true) :
    kind' ≠ .global ∧ (kind' = .block → kind ≠ .global) := by
  cases kind <;> cases kind' <;> simp_all [ScopeKind.mayHold]

/-- The first section has the name of the program in its heading. -/
theorem heading_global (p : Program Expr) (name : String) : ∃ s,
    (ofProgram p name).1.scopes.get? (ofProgram p name).1.globalScope = some s ∧
      (ofProgram p name).1.scopes.heading s = "Global Symbol Table: " ++ name := by
  have hregion : (p.regions name)[0]? =
      some ⟨.global, name, p.classes.map ClassDecl.declaration, none, p.classKeys⟩ := rfl
  obtain ⟨s, hs, hkind, hname, -⟩ := get?_regions hregion
  refine ⟨s, hs, ?_⟩
  rw [Arena.heading, hkind, hname]
  rfl

section Read

variable (h : Program.parse source = .ok p)
include h

/-! ## Symbols -/

/-- The line of a symbol can be read back. -/
theorem plain_of_kept {r : Region} {x : Declaration} (hr : r ∈ p.regions name)
    (hx : x ∈ kept p.declared r.declarations) :
    SymbolText.Plain ⟨x.kind, x.name,
      (ofProgram p name).1.types.spelled (x.symbol (ofProgram p name).1.types).type⟩ := by
  have hline := (legible_ofProgram h name).newline_not_mem_spelled (holds_of_kept hr hx)
  have hread : x.Read := by
    have hmem := (mem_of_mem_kept hx).1
    rcases Program.titled_of_parse h name hr with ⟨-, hglobal⟩ | htitled
    · exact hglobal x hmem
    · exact htitled.declarations x hmem
  rw [TypeTable.spelled_of_describe (describe_of_kept hr hx)] at hline ⊢
  refine hread.plain (fun type ht => ?_) hline
  exact Program.written_of_parse h type (types_of_kept hr hx ht).1

/-! ## Names of scopes -/

/-- Only the program may be called as one likes. -/
theorem word_of_scope (hs : (ofProgram p name).1.scopes.get? k = some s)
    (hkind : s.kind ≠ .global) : IsWord s.name ∧ (s.kind = .block → s.name = "") := by
  obtain ⟨r, hr, hkind', hname, -⟩ := exists_region hs
  rcases Program.titled_of_parse h name hr with ⟨hglobal, -⟩ | htitled
  · exact absurd (hkind'.trans hglobal) hkind
  · rw [hname, hkind']
    exact ⟨htitled.word, htitled.block⟩

/-- What a scope other than that of the program is called is a word, with other words in
front if it is a block. -/
theorem not_mem_label {c : Char} (hc : c = ',' ∨ c = '\n')
    (hs : (ofProgram p name).1.scopes.get? k = some s) (hkind : s.kind ≠ .global) :
    c ∉ ((ofProgram p name).1.scopes.label k).toList := by
  have hword : isWordChar c = false := by rcases hc with rfl | rfl <;> rfl
  have hplace : c ∉ "statement block in ".toList ∧ c ∉ "?".toList := by
    rcases hc with rfl | rfl <;> decide
  rw [Arena.label, hs]
  dsimp only
  split
  next =>
    rw [String.toList_append, List.mem_append, not_or]
    refine ⟨hplace.1, ?_⟩
    split
    next m hm =>
      -- What is found is the scope of a method.
      have hmethod := List.find?_some hm
      rw [Arena.isMethod] at hmethod
      split at hmethod
      next s' hs' =>
        rw [Arena.nameOf, hs']
        have hkind' : s'.kind = .method := of_decide_eq_true hmethod
        exact (word_of_scope h hs' (by rw [hkind']; decide)).1.not_mem hword
      next => cases hmethod
    next => exact hplace.2
  next => exact (word_of_scope h hs hkind).1.not_mem hword

/-! ## Sections -/

/-- The section of a scope can be read back. -/
theorem plain_panel (hs : (ofProgram p name).1.scopes.get? k = some s) :
    ((ofProgram p name).1.scopes.panel (ofProgram p name).1.types s).Plain where
  block hblock := by
    have hkind : s.kind = .block := hblock
    refine ⟨(word_of_scope h hs (by rw [hkind]; decide)).2 hkind, ?_⟩
    rw [Arena.panel]
    dsimp only
    split
    next o ho =>
      have hparent : (ofProgram p name).1.scopes.parentOf k = some o := by
        rw [Arena.parentOf, hs, Option.bind_some, ho]
      obtain ⟨s', hs', hhold⟩ := mayHold_of_parentOf hs hparent
      exact not_mem_label h (Or.inr rfl) hs' ((ne_global_of_mayHold hhold).2 hkind)
    next => decide
  symbols := by
    obtain ⟨r, hr, -, -, hsymbols⟩ := exists_region hs
    rw [Arena.panel, hsymbols, List.map_map]
    exact List.forall_mem_map.mpr fun x hx => plain_of_kept h hr hx
  labels := by
    refine List.forall_mem_map.mpr fun child hchild => ?_
    have hparent : (ofProgram p name).1.scopes.parentOf child = some k := by
      rw [← (isTree_ofProgram p name).mem_childrenOf, Arena.childrenOf, hs]
      exact hchild
    obtain ⟨s', hs'⟩ := Arena.get?_eq_some (Arena.lt_size_of_parentOf hparent)
    obtain ⟨_, -, hhold⟩ := mayHold_of_parentOf hs' hparent
    have hkind := (ne_global_of_mayHold hhold).1
    exact ⟨not_mem_label h (Or.inl rfl) hs' hkind, not_mem_label h (Or.inr rfl) hs' hkind⟩

theorem readable_ofProgram (name : String) :
    (ofProgram p name).1.scopes.Readable (ofProgram p name).1.types
      (ofProgram p name).1.globalScope where
  isTree := isTree_ofProgram p name
  described k s hs x hx :=
    (ofProgram_types_sound p name).describe_eq
      (ofProgram_holds p name (Arena.mem_symbols.mpr ⟨k, s, hs, hx⟩))
  plain k s hs := plain_panel h hs
  title k s hs hne := by
    have hlinked := linked_linkedTo p name (Nat.le_refl p.classes.length)
    have hlt := Arena.lt_size_of_get? hs
    rw [ofProgram_scopes] at hlt
    -- Every other scope has a parent, and so is not that of the program.
    obtain ⟨o, ho⟩ := Option.isSome_iff_exists.mp (hlinked.parentOf_isSome hlt hne)
    rw [← ofProgram_scopes] at ho
    obtain ⟨_, -, hhold⟩ := mayHold_of_parentOf hs ho
    exact (word_of_scope h hs (ne_global_of_mayHold hhold).1).1.not_mem rfl

end Read

/-! ## The main result -/

/-- The scopes of a program are listed in full, and their tree can be read back from the
listing. -/
theorem scope_listing_faithful (h : Program.parse source = .ok p)
    (h' : Program.parse source' = .ok p') (name : String) :
    let t := (ofProgram p name).1
    let t' := (ofProgram p' name).1
    (∃ text, t.scopes.listing t.types t.globalScope = .ok text ∧
        t.scopes.Shows t.types t.globalScope text) ∧
      (t.scopes.listing t.types t.globalScope = t'.scopes.listing t'.types t'.globalScope →
        t.scopes.tree (t.scopes.view t.types) t.globalScope =
          t'.scopes.tree (t'.scopes.view t'.types) t'.globalScope) := by
  intro t t'
  obtain ⟨s, hs, hheading⟩ := heading_global p name
  obtain ⟨s', hs', hheading'⟩ := heading_global p' name
  refine ⟨(readable_ofProgram h name).shows, fun heq => ?_⟩
  exact (readable_ofProgram h name).eq_of_listing (readable_ofProgram h' name) hs hs'
    (hheading.trans hheading'.symm) heq

/-- Two programs with blocks of one label, one of which returns from the method. -/
theorem scope_listing_faithful_return :
    let text := "class A \x7b void m() \x7b \x7b\x7d \x7b A x; \x7b\x7d \x7d \x7d \x7d"
    let text' := "class A \x7b void m() \x7b \x7b\x7d \x7b A x; \x7b return; \x7d \x7d \x7d \x7d"
    ∃ p p' : Program Expr, Program.parse text = .ok p ∧ Program.parse text' = .ok p' ∧
      let t := (ofProgram p "a.ic").1
      let t' := (ofProgram p' "a.ic").1
      (∃ listing, t.scopes.listing t.types t.globalScope = .ok listing ∧
        t.scopes.Shows t.types t.globalScope listing) ∧
      t.scopes.listing t.types t.globalScope = t'.scopes.listing t'.types t'.globalScope ∧
      t.scopes.tree (t.scopes.view t.types) t.globalScope =
        t'.scopes.tree (t'.scopes.view t'.types) t'.globalScope := by
  intro text text'
  have hsame : (match Program.parse text, Program.parse text' with
      | .ok p, .ok p' => decide ((ofProgram p "a.ic").1.scopes = (ofProgram p' "a.ic").1.scopes ∧
        (ofProgram p "a.ic").1.types.entries = (ofProgram p' "a.ic").1.types.entries ∧
        (ofProgram p "a.ic").1.types.superclasses = (ofProgram p' "a.ic").1.types.superclasses)
      | _, _ => false) = true := by decide +kernel
  split at hsame
  next p p' hp hp' =>
    obtain ⟨hscopes, hentries, hsuper⟩ := of_decide_eq_true hsame
    have htypes := types_eq_of_entries hentries hsuper
    obtain ⟨hshows, hback⟩ := scope_listing_faithful hp hp' "a.ic"
    have hlisting : (ofProgram p "a.ic").1.scopes.listing (ofProgram p "a.ic").1.types 0 =
        (ofProgram p' "a.ic").1.scopes.listing (ofProgram p' "a.ic").1.types 0 := by
      rw [hscopes, htypes]
    exact ⟨p, p', hp, hp', hshows, hlisting, hback hlisting⟩
  next => cases hsame

end SymbolTables

end IcFront
