import IcFront.Proofs.SearchPath
import IcFront.Proofs.Tables.Described
import IcFront.Scopes.Listing

/-!
# What names mean

In finished tables a name is looked up along the path that the program gives its site
(`names_resolve_as_scoped`). The search goes from scope to scope along parents, and these
have been set one by one while the tables were made: those of blocks when their method
was done, those of methods by their class, and those of classes at linkage. `Arena.Way`
says where the parents lead, and `ways_of_sites` that it is along the path of the site.

`Arena.Finds` is the search itself, which does not know how long it is going to take. It
ends, and `Arena.resolve` gives what it finds (`Way.finds_iff`).

A block is on its way to the method that it lies in, so that its label and its heading
always have a method to name.
-/

namespace IcFront

variable {ε : Type}

/-! ## Searching along a way -/

namespace Arena

/-- Where the way along parents leads from a scope: these scopes, and nowhere from the last
of them. -/
inductive Way (a : Arena) : Nat → List Nat → Prop
  | last {k : Nat} (h : a.parentOf k = none) : Way a k []
  | step {k o : Nat} {ks : List Nat} (h : a.parentOf k = some o) (rest : Way a o ks) :
    Way a k (o :: ks)

/-- What comes of a search for a name that goes on from a scope to its parent for as long as
the name is not declared and there is a parent. -/
inductive Finds (a : Arena) (n : String) : Nat → Option (Nat × Symbol) → Prop
  | here {k : Nat} {s : Symbol} (h : a.lookupLocal k n = some s) : Finds a n k (some (k, s))
  | above {k o : Nat} {r : Option (Nat × Symbol)} (h : a.lookupLocal k n = none)
    (hparent : a.parentOf k = some o) (rest : Finds a n o r) : Finds a n k r
  | nowhere {k : Nat} (h : a.lookupLocal k n = none) (hparent : a.parentOf k = none) :
    Finds a n k none

variable {a : Arena} {n : String} {k : Nat} {ks : List Nat}

/-- A search comes to one thing only. -/
theorem Finds.unique {r r' : Option (Nat × Symbol)} (h : a.Finds n k r) (h' : a.Finds n k r') :
    r = r' := by
  induction h with
  | here hs =>
    cases h' with
    | here hs' => rw [Option.some.inj (hs.symm.trans hs')]
    | above hnone | nowhere hnone => exact absurd (hs.symm.trans hnone) (by simp)
  | above hnone hparent _ ih =>
    cases h' with
    | here hs => exact absurd (hs.symm.trans hnone) (by simp)
    | above _ hparent' rest =>
      obtain rfl := Option.some.inj (hparent.symm.trans hparent')
      exact ih rest
    | nowhere _ hparent' => exact absurd (hparent.symm.trans hparent') (by simp)
  | nowhere hnone hparent =>
    cases h' with
    | here hs => exact absurd (hs.symm.trans hnone) (by simp)
    | above _ hparent' => exact absurd (hparent.symm.trans hparent') (by simp)
    | nowhere => rfl

namespace Way

/-- A search for ancestors that is long enough finds all scopes on the way. -/
theorem ancestorsWithin_eq (h : a.Way k ks) {depth : Nat} (hdepth : ks.length ≤ depth) :
    a.ancestorsWithin depth k = ks := by
  induction h generalizing depth with
  | last hnone =>
    cases depth with
    | zero => rfl
    | succ depth => rw [ancestorsWithin, hnone]
  | @step k o ks hparent _ ih =>
    obtain ⟨d, rfl⟩ : ∃ d, depth = d + 1 := ⟨depth - 1, by rw [List.length_cons] at hdepth; omega⟩
    rw [ancestorsWithin, hparent]
    exact congrArg (o :: ·) (ih (Nat.le_of_succ_le_succ hdepth))

theorem ancestors_eq (h : a.Way k ks) (hclosed : a.Closed) (hac : Acyclic a.parentOf) :
    a.ancestors k = ks := by
  rw [← ancestorsWithin_eq_ancestors hclosed hac (Nat.le_max_left a.size ks.length) k]
  exact h.ancestorsWithin_eq (Nat.le_max_right a.size ks.length)

/-- A search finds the first declaration on the way. -/
theorem finds (h : a.Way k ks) (n : String) :
    a.Finds n k ((k :: ks).findSome? fun x => (a.lookupLocal x n).map fun s => (x, s)) := by
  induction h with
  | @last k hparent =>
    rw [List.findSome?_cons]
    cases hs : a.lookupLocal k n with
    | some s => exact .here hs
    | none => exact .nowhere hs hparent
  | @step k o ks hparent _ ih =>
    rw [List.findSome?_cons]
    cases hs : a.lookupLocal k n with
    | some s => exact .here hs
    | none => exact .above hs hparent ih

/-- The search ends, with what the name means. -/
theorem finds_iff (h : a.Way k ks) (hclosed : a.Closed) (hac : Acyclic a.parentOf)
    {r : Option (Nat × Symbol)} : a.Finds n k r ↔ r = a.resolve k n := by
  have hfinds := h.finds n
  rw [← h.ancestors_eq hclosed hac] at hfinds
  constructor
  · intro hr
    exact hr.unique hfinds
  · intro heq
    rw [heq]
    exact hfinds

end Way

/-- A name means the nearest declaration of it. -/
theorem resolve_eq_some_iff {x : Nat} {s : Symbol} :
    a.resolve k n = some (x, s) ↔ ∃ nearer farther, k :: a.ancestors k = nearer ++ x :: farther ∧
      a.lookupLocal x n = some s ∧ ∀ y ∈ nearer, a.lookupLocal y n = none := by
  rw [resolve, List.findSome?_eq_some_iff]
  constructor
  · intro hex
    obtain ⟨nearer, y, farther, hsplit, hy, hnone⟩ := hex
    obtain ⟨s', hs', heq⟩ := Option.map_eq_some_iff.mp hy
    obtain ⟨rfl, rfl⟩ := Prod.mk.inj heq
    exact ⟨nearer, farther, hsplit, hs', fun z hz => Option.map_eq_none_iff.mp (hnone z hz)⟩
  · intro hex
    obtain ⟨nearer, farther, hsplit, hs, hnone⟩ := hex
    refine ⟨nearer, x, farther, hsplit, ?_, fun z hz => Option.map_eq_none_iff.mpr (hnone z hz)⟩
    rw [hs, Option.map_some]

theorem lookupLocal_eq_some_iff {s : Symbol} :
    a.lookupLocal k n = some s ↔ a.resolve k n = some (k, s) := by
  constructor
  · intro hs
    rw [resolve, List.findSome?_cons, hs, Option.map_some]
  · intro h
    obtain ⟨_, _, _, hs, _⟩ := resolve_eq_some_iff.mp h
    exact hs

end Arena

/-! ## Superclasses accepted -/

namespace Program

variable {p : Program ε} {i j : Nat}

theorem lineage_lt (h : j ∈ p.lineage i) : j < p.classes.length := by
  obtain ⟨m, hpos, _, hm⟩ := mem_chain_iff.mp h
  exact follow_lt (fun _ _ => lt_of_accepted) hpos hm

theorem classFrame?_eq (hi : i < p.classes.length) :
    ∃ c, p.classes[i]? = some c ∧ p.classFrame? i = some (c.frame (p.classKey i)) := by
  have hc := List.getElem?_eq_getElem hi
  exact ⟨_, hc, by rw [classFrame?, hc, Option.map_some]⟩

theorem filterMap_classFrame?_keys {js : List Nat} (hjs : ∀ j ∈ js, j < p.classes.length) :
    (js.filterMap p.classFrame?).map Frame.key = js.map p.classKey := by
  induction js with
  | nil => rfl
  | cons j js ih =>
    obtain ⟨c, _, hframe⟩ := classFrame?_eq (hjs j List.mem_cons_self)
    rw [List.filterMap_cons, hframe, List.map_cons, List.map_cons,
      ih fun x hx => hjs x (List.mem_cons_of_mem _ hx)]
    rfl

theorem classPath_keys (hi : i < p.classes.length) :
    (p.classPath i).map Frame.key = p.classKey i :: ((p.lineage i).map p.classKey ++ [0]) := by
  have hlt : ∀ j ∈ i :: p.lineage i, j < p.classes.length := by
    intro j hj
    rcases List.mem_cons.mp hj with rfl | hmem
    · exact hi
    · exact lineage_lt hmem
  rw [classPath, List.map_append, filterMap_classFrame?_keys hlt]
  rfl

/-- From a class no method is searched. -/
theorem classPath_stands {name : String} {f : Frame} (hf : f ∈ p.classPath i) :
    ∃ kind title outer, kind ≠ .method ∧ f.Stands p name kind title outer := by
  rcases List.mem_append.mp hf with hclass | hglobal
  · obtain ⟨j, _, hj⟩ := List.mem_filterMap.mp hclass
    obtain ⟨c, hc, rfl⟩ := Option.map_eq_some_iff.mp hj
    exact ⟨.class_, _, _, by simp, ClassDecl.frame_stands hc⟩
  · obtain rfl := List.mem_singleton.mp hglobal
    exact ⟨.global, _, _, by simp, p.frame_stands name⟩

theorem blocksIn_stands {name : String} {o : Nat} {f : Frame} {fs : List Frame}
    (h : p.BlocksIn name o fs) (hf : f ∈ fs) : ∃ outer, f.Stands p name .block "" outer := by
  induction fs with
  | nil => exact absurd hf List.not_mem_nil
  | cons b around ih =>
    rcases List.mem_cons.mp hf with rfl | hrest
    · exact ⟨_, h.1⟩
    · exact ih h.2 hrest

end Program

namespace SymbolTables

section Finished

variable (p : Program ε) (name : String)

theorem closed_ofProgram : (ofProgram p name).1.scopes.Closed := by
  rw [ofProgram_scopes]
  exact (linked_linkedTo p name (Nat.le_refl p.classes.length)).closed

theorem acyclic_ofProgram : Acyclic (ofProgram p name).1.scopes.parentOf := by
  rw [ofProgram_scopes]
  exact (linked_linkedTo p name (Nat.le_refl p.classes.length)).acyclic

/-- Superclasses accepted do not go round in circles, since the scopes do not. -/
theorem accepted_acyclic : Acyclic (accepted p.superclass?) := by
  have hstep : ∀ i j, Leads (accepted p.superclass?) i j →
      Leads (ofProgram p "").1.scopes.parentOf (p.classKey i) (p.classKey j) := by
    intro i j hij
    have hi : i < p.classes.length := by
      by_contra hnot
      have hnone : p.superclass? i = none := by
        rw [Program.superclass?, List.getElem?_eq_none (Nat.le_of_not_lt hnot), Option.bind_none,
          Option.bind_none]
      rw [Leads, accepted, hnone, ite_self] at hij
      exact absurd hij (by simp)
    rw [Leads, parentOf_classKey p "" hi, Program.parentKey_of_accepted hij]
  intro x hx
  exact acyclic_ofProgram p "" _ (Relation.TransGen.lift p.classKey hstep x x hx)

/-- The superclasses of a class are all there are. -/
theorem follow_accepted_eq_none {i : Nat} (hi : i < p.classes.length) :
    follow (accepted p.superclass?) p.classes.length i = none :=
  follow_eq_none_of_acyclic (fun _ _ => Program.lt_of_accepted) (accepted_acyclic p) hi

theorem parentOf_zero : (ofProgram p name).1.scopes.parentOf 0 = none := by
  rw [ofProgram_scopes]
  exact (linked_linkedTo p name (Nat.le_refl p.classes.length)).parentOf_zero

/-! ## Ways of sites -/

/-- From a class the way leads over its superclasses to the global scope. -/
theorem way_of_chain {n i : Nat} (hi : i < p.classes.length)
    (hend : follow (accepted p.superclass?) n i = none) :
    (ofProgram p name).1.scopes.Way (p.classKey i)
      ((chain (accepted p.superclass?) n i).map p.classKey ++ [0]) := by
  induction n generalizing i with
  | zero => exact absurd hend (by simp)
  | succ n ih =>
    have hparent := parentOf_classKey p name hi
    rw [chain]
    cases hacc : accepted p.superclass? i with
    | none =>
      rw [Program.parentKey_of_not_accepted hacc] at hparent
      exact .step hparent (.last (parentOf_zero p name))
    | some j =>
      rw [Program.parentKey_of_accepted hacc] at hparent
      rw [follow_succ, hacc, Option.bind_some] at hend
      exact .step hparent (ih (Program.lt_of_accepted hacc) hend)

theorem way_of_class {i : Nat} (hi : i < p.classes.length) :
    (ofProgram p name).1.scopes.Way (p.classKey i) ((p.lineage i).map p.classKey ++ [0]) :=
  way_of_chain p name hi (follow_accepted_eq_none p hi)

variable {p name}

theorem get?_of_stands {f : Frame} {kind : ScopeKind} {title : String} {outer : Option Nat}
    (h : f.Stands p name kind title outer) :
    ∃ s, (ofProgram p name).1.scopes.get? f.key = some s ∧ s.kind = kind ∧ s.name = title ∧
      s.symbols =
        (kept p.declared f.declarations).map (·.symbol (ofProgram p name).1.types) := by
  obtain ⟨inner, hr⟩ := h
  exact get?_ofProgram p name hr

/-- A place that lies in a region has the scope of the region as its parent. -/
theorem parentOf_of_stands {f : Frame} {kind : ScopeKind} {title : String} {o : Nat}
    (h : f.Stands p name kind title (some o)) :
    (ofProgram p name).1.scopes.parentOf f.key = some o := by
  obtain ⟨inner, hr⟩ := h
  refine parentOf_of_notMem p name hr fun hmem => ?_
  have hnone := (Program.outer_eq_none_iff hr).mpr (Or.inr hmem)
  exact absurd hnone (by simp)

theorem lookupLocal_of_stands {f : Frame} {kind : ScopeKind} {title : String}
    {outer : Option Nat} (h : f.Stands p name kind title outer) (n : String) :
    (ofProgram p name).1.scopes.lookupLocal f.key n =
      (f.find? p.declared n).map (·.symbol (ofProgram p name).1.types) := by
  obtain ⟨s, hs, _, _, hsymbols⟩ := get?_of_stands h
  rw [Arena.lookupLocal, hs, Option.bind_some, Scope.lookup, hsymbols, List.find?_map]
  rfl

/-- From a block the way leads over the blocks around it to what they lie in. -/
theorem way_of_blocks {o : Nat} {ks : List Nat}
    (ho : (ofProgram p name).1.scopes.Way o ks) {fs : List Frame} (h : p.BlocksIn name o fs) :
    (ofProgram p name).1.scopes.Way (Frame.innermost o fs)
      ((fs.map Frame.key ++ o :: ks).tail) := by
  induction fs with
  | nil => exact ho
  | cons b around ih =>
    have hparent := parentOf_of_stands h.1
    have hrest := ih h.2
    cases around with
    | nil => exact .step hparent hrest
    | cons b' around => exact .step hparent hrest

/-- From a site the way leads along the path of the site. -/
theorem way_of_site {site : Site ε} (h : site.Stands p name) :
    ∃ ks, (site.path p).map Frame.key = site.key p :: ks ∧
      (ofProgram p name).1.scopes.Way (site.key p) ks := by
  cases site with
  | program => exact ⟨[], rfl, .last (parentOf_zero p name)⟩
  | class_ i => exact ⟨_, Program.classPath_keys h, way_of_class p name h⟩
  | method i key m =>
    obtain ⟨hi, hm⟩ := h
    refine ⟨_, congrArg (key :: ·) (Program.classPath_keys hi), ?_⟩
    exact .step (parentOf_of_stands hm) (way_of_class p name hi)
  | block i key m b around =>
    obtain ⟨hi, hm, hblocks⟩ := h
    have hmethod := Arena.Way.step (parentOf_of_stands hm) (way_of_class p name hi)
    refine ⟨_, ?_, way_of_blocks hmethod hblocks⟩
    show ((b :: around) ++ m.frame key :: p.classPath i).map Frame.key = _
    rw [List.map_append, List.map_cons, List.map_cons, Program.classPath_keys hi]
    rfl

theorem mem_path_stands {site : Site ε} (h : site.Stands p name) {f : Frame}
    (hf : f ∈ site.path p) : ∃ kind title outer, f.Stands p name kind title outer := by
  have hclass : ∀ {i : Nat}, f ∈ p.classPath i →
      ∃ kind title outer, f.Stands p name kind title outer := by
    intro i hmem
    obtain ⟨kind, title, outer, _, hf⟩ := Program.classPath_stands hmem
    exact ⟨kind, title, outer, hf⟩
  cases site with
  | program =>
    obtain rfl := List.mem_singleton.mp hf
    exact ⟨_, _, _, p.frame_stands name⟩
  | class_ i => exact hclass hf
  | method i key m =>
    rcases List.mem_cons.mp hf with rfl | hrest
    · exact ⟨_, _, _, h.2⟩
    · exact hclass hrest
  | block i key m b around =>
    rcases List.mem_append.mp hf with hin | hout
    · obtain ⟨outer, hf⟩ := Program.blocksIn_stands h.2.2 hin
      exact ⟨_, _, outer, hf⟩
    · rcases List.mem_cons.mp hout with rfl | hrest
      · exact ⟨_, _, _, h.2.1⟩
      · exact hclass hrest

/-- The scopes that are searched from a site are those on its path. -/
theorem searched_eq {site : Site ε} (h : site.Stands p name) :
    site.key p :: (ofProgram p name).1.scopes.ancestors (site.key p) =
      (site.path p).map Frame.key := by
  obtain ⟨ks, hkeys, hway⟩ := way_of_site h
  rw [hway.ancestors_eq (closed_ofProgram p name) (acyclic_ofProgram p name), hkeys]

/-! ## Names -/

/-- What a name means in a scope, if names are to be looked up in these places. -/
structure ResolvesAlong (t : SymbolTables) (declared : List String) (path : List Frame)
    (key : Nat) : Prop where
  /-- The places are the scope and its ancestors, of which there are no more. -/
  searched : key :: t.scopes.ancestors key = path.map Frame.key
  ancestors_end : ∀ depth, t.scopes.size ≤ depth →
    t.scopes.ancestorsWithin depth key = t.scopes.ancestors key
  /-- A place declares what is kept of the declarations there. -/
  declares : ∀ f ∈ path, ∀ n,
    t.scopes.lookupLocal f.key n = (f.find? declared n).map (·.symbol t.types)
  /-- A name means its declaration in the first place that has one. -/
  resolve : ∀ n, t.scopes.resolve key n =
    path.findSome? fun f => (f.find? declared n).map fun x => (f.key, x.symbol t.types)
  resolve_none : ∀ n, t.scopes.resolve key n = none ↔
    ∀ f ∈ path, ∀ x ∈ kept declared f.declarations, x.name ≠ n
  /-- The scope that comes with it declares the name, and no nearer one does. -/
  nearest : ∀ n k s, t.scopes.resolve key n = some (k, s) ↔
    ∃ nearer farther, key :: t.scopes.ancestors key = nearer ++ k :: farther ∧
      t.scopes.lookupLocal k n = some s ∧ ∀ x ∈ nearer, t.scopes.lookupLocal x n = none
  /-- A search along parents that is not told where to stop comes to the same. -/
  finds : ∀ n r, t.scopes.Finds n key r ↔ r = t.scopes.resolve key n
  /-- The other queries agree. -/
  lookup : ∀ n, t.scopes.lookup key n = (t.scopes.resolve key n).map (·.2)
  tables_lookup : ∀ n, t.lookup key n = t.scopes.lookup key n
  lookupLocal : ∀ n s, t.scopes.lookupLocal key n = some s ↔
    t.scopes.resolve key n = some (key, s)

theorem resolve_of_site {site : Site ε} (h : site.Stands p name) (n : String) :
    (ofProgram p name).1.scopes.resolve (site.key p) n =
      (site.path p).findSome? fun f =>
        (f.find? p.declared n).map fun x => (f.key, x.symbol (ofProgram p name).1.types) := by
  have hlocal : ∀ f ∈ site.path p,
      ((ofProgram p name).1.scopes.lookupLocal f.key n).map (fun s => (f.key, s)) =
        (f.find? p.declared n).map fun x => (f.key, x.symbol (ofProgram p name).1.types) := by
    intro f hf
    obtain ⟨_, _, _, hstands⟩ := mem_path_stands h hf
    rw [lookupLocal_of_stands hstands, Option.map_map]
    rfl
  rw [Arena.resolve, searched_eq h, List.findSome?_map]
  generalize site.path p = path at hlocal
  induction path with
  | nil => rfl
  | cons f path ih =>
    rw [List.findSome?_cons, List.findSome?_cons, Function.comp_apply,
      hlocal f List.mem_cons_self, ih fun g hg => hlocal g (List.mem_cons_of_mem _ hg)]

theorem find?_eq_none_iff {declared : List String} {f : Frame} {n : String} :
    f.find? declared n = none ↔ ∀ x ∈ kept declared f.declarations, x.name ≠ n := by
  rw [Frame.find?, List.find?_eq_none]
  simp only [beq_iff_eq, ne_eq]

theorem resolvesAlong {site : Site ε} (h : site.Stands p name) :
    ResolvesAlong (ofProgram p name).1 p.declared (site.path p) (site.key p) where
  searched := searched_eq h
  ancestors_end _ hdepth :=
    Arena.ancestorsWithin_eq_ancestors (closed_ofProgram p name) (acyclic_ofProgram p name)
      hdepth (site.key p)
  declares f hf n := by
    obtain ⟨_, _, _, hstands⟩ := mem_path_stands h hf
    exact lookupLocal_of_stands hstands n
  resolve n := resolve_of_site h n
  resolve_none n := by
    rw [resolve_of_site h, List.findSome?_eq_none_iff]
    simp only [Option.map_eq_none_iff, find?_eq_none_iff]
  nearest _ _ _ := Arena.resolve_eq_some_iff
  finds _ _ := by
    obtain ⟨_, _, hway⟩ := way_of_site h
    exact hway.finds_iff (closed_ofProgram p name) (acyclic_ofProgram p name)
  lookup _ := rfl
  tables_lookup _ := rfl
  lookupLocal _ _ := Arena.lookupLocal_eq_some_iff

/-! ## Enclosing methods and labels -/

theorem isMethod_of_stands {f : Frame} {kind : ScopeKind} {title : String} {outer : Option Nat}
    (h : f.Stands p name kind title outer) :
    (ofProgram p name).1.scopes.isMethod f.key = decide (kind = .method) := by
  obtain ⟨s, hs, rfl, _⟩ := get?_of_stands h
  rw [Arena.isMethod, hs]

theorem find?_method_classPath (i : Nat) :
    ((p.classPath i).map Frame.key).find? (ofProgram p name).1.scopes.isMethod = none := by
  rw [List.find?_eq_none]
  intro k hk
  obtain ⟨f, hf, rfl⟩ := List.mem_map.mp hk
  obtain ⟨kind, _, _, hkind, hstands⟩ := Program.classPath_stands hf
  rw [isMethod_of_stands hstands, decide_eq_true_eq]
  exact hkind

/-- The method that a site is or lies in is found. -/
theorem enclosingMethod_of_site {site : Site ε} (h : site.Stands p name) :
    (ofProgram p name).1.scopes.enclosingMethod (site.key p) = site.method? := by
  have hfound : ∀ {i key : Nat} {m : Method ε},
      (m.frame key).Stands p name .method m.name (some (p.classKey i)) →
        ((m.frame key :: p.classPath i).map Frame.key).find?
          (ofProgram p name).1.scopes.isMethod = some key := by
    intro i key m hm
    exact List.find?_cons_of_pos (isMethod_of_stands hm)
  rw [Arena.enclosingMethod, searched_eq h]
  cases site with
  | program =>
    rw [Site.path, List.map_singleton, List.find?_cons_of_neg, List.find?_nil]
    · rfl
    · rw [isMethod_of_stands (p.frame_stands name)]
      simp
  | class_ i => exact find?_method_classPath i
  | method i key m => exact hfound h.2
  | block i key m b around =>
    have hnone : ((b :: around).map Frame.key).find? (ofProgram p name).1.scopes.isMethod =
        none := by
      rw [List.find?_eq_none]
      intro k hk
      obtain ⟨f, hf, rfl⟩ := List.mem_map.mp hk
      obtain ⟨_, hstands⟩ := Program.blocksIn_stands h.2.2 hf
      rw [isMethod_of_stands hstands]
      simp
    show (((b :: around) ++ m.frame key :: p.classPath i).map Frame.key).find? _ = _
    rw [List.map_append, List.find?_append, hnone, Option.none_or]
    exact hfound h.2.1

/-- What has a name is called by it. -/
theorem label_of_stands {f : Frame} {kind : ScopeKind} {title : String} {outer : Option Nat}
    (h : f.Stands p name kind title outer) (hkind : kind ≠ .block) :
    (ofProgram p name).1.scopes.label f.key = title ∧
      ((ofProgram p name).1.scopes.get? f.key).map (ofProgram p name).1.scopes.heading =
        some (kind.text ++ " Symbol Table: " ++ title) := by
  obtain ⟨s, hs, rfl, rfl, _⟩ := get?_of_stands h
  rw [Arena.label, hs, Option.map_some, Arena.heading]
  dsimp only
  cases hk : s.kind with
  | block => exact absurd hk hkind
  | global | class_ | method => exact ⟨rfl, rfl⟩

theorem classFrame_stands {i : Nat} (hi : i < p.classes.length) :
    ∃ f : Frame, f.key = p.classKey i ∧
      f.Stands p name .class_ ((Site.class_ i : Site ε).title p name) none := by
  have hc := List.getElem?_eq_getElem hi
  have htitle : (Site.class_ i : Site ε).title p name = (p.classes[i]).name := by
    rw [Site.title, Program.declared, List.getElem?_map, hc, Option.map_some, Option.getD_some]
  rw [htitle]
  exact ⟨_, rfl, ClassDecl.frame_stands hc⟩

/-- A block is called by the method that it lies in. -/
theorem label_of_block {i key : Nat} {m : Method ε} {b : Frame} {around : List Frame}
    (h : (Site.block i key m b around).Stands p name) :
    (ofProgram p name).1.scopes.label b.key = "statement block in " ++ m.name := by
  have hmethod : (ofProgram p name).1.scopes.enclosingMethod b.key = some key :=
    enclosingMethod_of_site h
  obtain ⟨s, hs, hkind, _⟩ := get?_of_stands h.2.2.1
  obtain ⟨s', hs', _, hname, _⟩ := get?_of_stands h.2.1
  have hnameOf : (ofProgram p name).1.scopes.nameOf key = m.name := by
    have hkey : (ofProgram p name).1.scopes.get? key = some s' := hs'
    rw [Arena.nameOf, hkey]
    exact hname
  rw [Arena.label, hs]
  simp only [hkind, hmethod, hnameOf]

/-- A block lies in its method or in another block of it, and its heading says so. -/
theorem heading_of_block {i key : Nat} {m : Method ε} {b : Frame} {around : List Frame}
    (h : (Site.block i key m b around).Stands p name) :
    ((ofProgram p name).1.scopes.get? b.key).map (ofProgram p name).1.scopes.heading =
      some ((Site.block i key m b around).heading p name) := by
  obtain ⟨hi, hm, hb, haround⟩ := h
  obtain ⟨s, hs, hkind, _⟩ := get?_of_stands hb
  have hparent := parentOf_of_stands hb
  rw [Arena.parentOf, hs, Option.bind_some] at hparent
  have hplace : (ofProgram p name).1.scopes.label (Frame.innermost key around) =
      if around.isEmpty then m.name else "statement block in " ++ m.name := by
    cases around with
    | nil => exact (label_of_stands hm (by simp)).1
    | cons b' around =>
      have houter : (Site.block i key m b' around).Stands p name := ⟨hi, hm, haround⟩
      exact label_of_block houter
  rw [hs, Option.map_some, Arena.heading]
  simp only [hkind, hparent, hplace]
  rfl

theorem label_of_site {site : Site ε} (h : site.Stands p name) :
    (ofProgram p name).1.scopes.label (site.key p) = site.label p name ∧
      ((ofProgram p name).1.scopes.get? (site.key p)).map (ofProgram p name).1.scopes.heading =
        some (site.heading p name) := by
  cases site with
  | program => exact label_of_stands (p.frame_stands name) (by simp)
  | class_ i =>
    obtain ⟨f, hkey, hf⟩ := classFrame_stands h
    have hlabel := label_of_stands hf (by simp)
    rwa [hkey] at hlabel
  | method i key m => exact label_of_stands h.2 (by simp)
  | block i key m b around => exact ⟨label_of_block h, heading_of_block h⟩

/-! ## Every scope -/

/-- Names mean in finished tables what the language says. There is one scope for each site
of the program, in document order. In the scope of a site a name means its first declaration
along the path of the site: that of a block leads over the blocks around it to the method
and the class, over the superclasses accepted, the nearest first, and ends at the classes of
the program. The method of every block is found, and named in its label and its heading. -/
theorem names_resolve_as_scoped (p : Program ε) (name : String) :
    let t := (ofProgram p name).1
    p.sites.map (Site.key p) = List.range t.scopes.size ∧
      (∀ i, i < p.classes.length →
        t.types.superclassOf (classId i) = (accepted p.superclass? i).map classId ∧
          ∀ depth, p.classes.length ≤ depth →
            chain (accepted p.superclass?) depth i = p.lineage i) ∧
      ∀ k site, p.sites[k]? = some site →
        ResolvesAlong t p.declared (site.path p) k ∧
          t.scopes.enclosingMethod k = site.method? ∧
          t.scopes.label k = site.label p name ∧
          (t.scopes.get? k).map t.scopes.heading = some (site.heading p name) := by
  intro t
  have h := linked_linkedTo p name (Nat.le_refl p.classes.length)
  have hkeys : p.sites.map (Site.key p) = List.range t.scopes.size := by
    rw [p.sites_keys, size_ofProgram p name]
  refine ⟨hkeys, fun i hi => ⟨?_, fun depth hdepth => ?_⟩, fun k site hsite => ?_⟩
  · show (ofProgram p name).1.types.superclassOf _ = _
    rw [ofProgram_types, h.superclassOf, if_pos hi]
  · exact chain_of_follow_eq_none (follow_accepted_eq_none p hi) hdepth
  · have hk : site.key p = k := by
      have hat := congrArg (·[k]?) hkeys
      simp only [List.getElem?_map, hsite, Option.map_some] at hat
      obtain ⟨_, hat⟩ := List.getElem?_eq_some_iff.mp hat.symm
      rw [← hat, List.getElem_range]
    have hstands := p.sites_stand name site (List.mem_of_getElem? hsite)
    subst hk
    exact ⟨resolvesAlong hstands, enclosingMethod_of_site hstands, label_of_site hstands⟩

end Finished

end SymbolTables

end IcFront
