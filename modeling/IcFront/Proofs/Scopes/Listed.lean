import IcFront.Proofs.Scopes.Preorder
import IcFront.Proofs.Scopes.Sections

/-!
# Trees of scopes read back from listings

A listing has one section for each scope of a tree, in the order of a walk from the root
(`Arena.Readable.shows`). If the sections can be told apart and read (`Arena.Readable`), then
the listing tells the tree: the sections give what each scope shows and how many children it
has (`Arena.Readable.alike_of_lines`), and that determines the tree
(`Arena.Readable.eq_of_listing`).

Nothing is asked of the name of the root, which may look like anything. For this the heading
of the first section has to be known.
-/

namespace IcFront

/-- What a reader sees of a scope: neither its key nor lines, and types by what describes
them. -/
structure ScopeView where
  kind : ScopeKind
  name : String
  symbols : List (SymbolKind × String × Except TypeFault String)

/-- What a section shows of the scope. -/
def Panel.view (p : Panel) : ScopeView :=
  ⟨p.kind, p.title, p.symbols.map fun x => (x.kind, x.name, .ok x.type)⟩

namespace Arena

variable {a a' : Arena} {types types' : TypeTable} {root root' k k' : Nat} {s s' : Scope}

/-- What a reader sees of the scope with a key. -/
def view (a : Arena) (types : TypeTable) (key : Nat) : Option ScopeView :=
  (a.get? key).map fun s =>
    ⟨s.kind, s.name, s.symbols.map fun x => (x.kind, x.name, types.describe x.type)⟩

/-- The lines of the section of a scope. -/
def lines (a : Arena) (types : TypeTable) (key : Nat) : List String :=
  match a.get? key with
  | some s => (a.panel types s).heading :: (a.panel types s).body
  | none => []

theorem lines_eq (hs : a.get? k = some s) :
    a.lines types k = (a.panel types s).heading :: (a.panel types s).body := by
  rw [lines, hs]

/-- What a listing shows of a tree of scopes: a section for each scope, and each once, a
scope before what lies below it and its children in their order. -/
structure Shows (a : Arena) (types : TypeTable) (root : Nat) (text : String) : Prop where
  sections : ∃ sections, text = "\n\n".intercalate sections ++ "\n" ∧
    List.Forall₂ (fun k x => a.section_ types k = .ok x) (a.walk root) sections
  once : (a.walk root).Perm (List.range a.size)
  order : ∀ k, k < a.size → a.walk k = k :: (a.childrenOf k).flatMap a.walk
  tree : ∀ k, k < a.size →
    a.tree (a.view types) k =
      .node (a.view types k) ((a.childrenOf k).map (a.tree (a.view types)))

/-- A tree of scopes that can be read back from its listing. -/
structure Readable (a : Arena) (types : TypeTable) (root : Nat) : Prop where
  isTree : a.IsTree root
  described : ∀ k s, a.get? k = some s → ∀ x ∈ s.symbols,
    types.describe x.type = .ok (types.spelled x.type)
  plain : ∀ k s, a.get? k = some s → (a.panel types s).Plain
  title : ∀ k s, a.get? k = some s → k ≠ root → '\n' ∉ s.name.toList

namespace Readable

section One

variable (h : a.Readable types root)
include h

theorem get?_of_mem_walk (hk : k ∈ a.walk root) : ∃ s, a.get? k = some s :=
  get?_eq_some (List.mem_range.mp (h.isTree.walk_perm.mem_iff.mp hk))

theorem section_lines (hk : k ∈ a.walk root) :
    a.section_ types k = .ok ("\n".intercalate (a.lines types k)) := by
  obtain ⟨s, hs⟩ := h.get?_of_mem_walk hk
  rw [section_eq hs (h.described k s hs), lines_eq hs]

theorem listing_eq : a.listing types root =
    .ok ("\n\n".intercalate ((a.walk root).map fun k => "\n".intercalate (a.lines types k)) ++
      "\n") := by
  rw [listing, mapM_eq_map fun k hk => h.section_lines hk]
  rfl

theorem shows : ∃ text, a.listing types root = .ok text ∧ a.Shows types root text := by
  refine ⟨_, h.listing_eq, ⟨_, rfl, ?_⟩, h.isTree.walk_perm, fun k hk => h.isTree.walk_eq hk,
    fun k hk => h.isTree.tree_eq hk⟩
  exact List.forall₂_map_right_iff.mpr (List.forall₂_same.mpr fun k hk => h.section_lines hk)

/-- A section shows what there is to see of its scope. -/
theorem view_eq (hs : a.get? k = some s) : a.view types k = some (a.panel types s).view := by
  have hsymbols : (s.symbols.map fun x => (x.kind, x.name, types.describe x.type)) =
      (a.panel types s).view.symbols := by
    rw [Panel.view, panel, List.map_map]
    refine List.map_congr_left fun x hx => ?_
    rw [h.described k s hs x hx]
    rfl
  rw [view, hs, Option.map_some, hsymbols]
  rfl

/-- The scopes on a walk after the first one have sections of lines. -/
theorem isLine_lines (hk : k ∈ a.walk root) (hne : k ≠ root) :
    a.lines types k ≠ [] ∧ ∀ line ∈ a.lines types k, IsLine line := by
  obtain ⟨s, hs⟩ := h.get?_of_mem_walk hk
  have hplain := h.plain k s hs
  rw [lines_eq hs, List.forall_mem_cons]
  exact ⟨by simp, hplain.isLine_heading (h.title k s hs hne), hplain.isLine_body⟩

/-- A walk starts at the root and does not come back to it. -/
theorem walk_root : ∃ rest, a.walk root = root :: rest ∧
    ∀ k ∈ rest, k ∈ a.walk root ∧ k ≠ root := by
  have hwalk := h.isTree.walk_eq h.isTree.root_lt
  have hnodup : (a.walk root).Nodup := h.isTree.walk_perm.nodup_iff.mpr List.nodup_range
  refine ⟨_, hwalk, fun k hk => ⟨?_, ?_⟩⟩
  · rw [hwalk]
    exact List.mem_cons_of_mem _ hk
  · intro heq
    rw [hwalk, List.nodup_cons] at hnodup
    exact hnodup.1 (heq ▸ hk)

end One

section Two

variable (h : a.Readable types root) (h' : a'.Readable types' root')
include h h'

/-- Scopes look the same if their sections have the same heading and body, and then have
as many children. -/
theorem alike_of_body (hs : a.get? k = some s) (hs' : a'.get? k' = some s')
    (hheading : (a.panel types s).heading = (a'.panel types' s').heading)
    (hbody : (a.panel types s).body = (a'.panel types' s').body) :
    (a.view types k, (a.childrenOf k).length) = (a'.view types' k', (a'.childrenOf k').length) := by
  have hplain := h.plain k s hs
  have hplain' := h'.plain k' s' hs'
  obtain ⟨hkind, htitle⟩ := Panel.eq_of_heading hplain hplain' hheading
  obtain ⟨hsymbols, hlabels⟩ := Panel.eq_of_body hplain hplain' hbody
  have hlength : (a.childrenOf k).length = (a'.childrenOf k').length := by
    have hlength := congrArg List.length hlabels
    rw [panel, panel, List.length_map, List.length_map] at hlength
    rwa [childrenOf, childrenOf, hs, hs']
  rw [h.view_eq hs, h'.view_eq hs', hlength, Panel.view, Panel.view, hkind, htitle, hsymbols]

theorem alike_of_lines (hk : k ∈ a.walk root) (hk' : k' ∈ a'.walk root')
    (heq : a.lines types k = a'.lines types' k') :
    (a.view types k, (a.childrenOf k).length) = (a'.view types' k', (a'.childrenOf k').length) := by
  obtain ⟨s, hs⟩ := h.get?_of_mem_walk hk
  obtain ⟨s', hs'⟩ := h'.get?_of_mem_walk hk'
  rw [lines_eq hs, lines_eq hs', List.cons_eq_cons] at heq
  exact h.alike_of_body h' hs hs' heq.1 heq.2

/-- Trees of scopes look the same if their listings are the same. -/
theorem eq_of_listing (hs : a.get? root = some s) (hs' : a'.get? root' = some s')
    (hheading : a.heading s = a'.heading s')
    (heq : a.listing types root = a'.listing types' root') :
    a.tree (a.view types) root = a'.tree (a'.view types') root' := by
  obtain ⟨rest, hwalk, hrest⟩ := h.walk_root
  obtain ⟨rest', hwalk', hrest'⟩ := h'.walk_root
  rw [h.listing_eq, h'.listing_eq, hwalk, hwalk', List.map_cons, List.map_cons, lines_eq hs,
    lines_eq hs'] at heq
  have htext := (String.append_left_inj _).mp (Except.ok.inj heq)
  have hsections : ∀ {b : Arena} {T : TypeTable} {ks : List Nat},
      (ks.map fun k => "\n".intercalate (b.lines T k)) =
        (ks.map (b.lines T)).map "\n".intercalate := by
    intro b T ks
    rw [List.map_map]
    rfl
  -- The first heading is known, and all lines after it can be told apart.
  rw [heading_panel, heading_panel, ← hheading, hsections, hsections] at htext
  obtain ⟨hbody, hlines⟩ := eq_of_sections (h.plain root s hs).isLine_body
    (h'.plain root' s' hs').isLine_body
    (List.forall_mem_map.mpr fun k hk => h.isLine_lines (hrest k hk).1 (hrest k hk).2)
    (List.forall_mem_map.mpr fun k hk => h'.isLine_lines (hrest' k hk).1 (hrest' k hk).2) htext
  refine h.isTree.tree_eq_of_walk h'.isTree ?_
  rw [hwalk, hwalk', List.map_cons, List.map_cons, h.alike_of_body h' hs hs' hheading hbody]
  refine congrArg _ (map_eq_map_of_imp (fun k hk k' hk' hsame => ?_) hlines)
  exact h.alike_of_lines h' (hrest k hk).1 (hrest' k' hk').1 hsame

end Two

end Readable

end Arena

end IcFront
