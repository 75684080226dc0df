import IcFront.Proofs.Review

/-!
# The types that a program mentions

`Program.types` lists the types that are written in the declarations of a program: those
of fields, of the results and parameters of methods, and of local variables, wherever
they stand. No region declares anything of another type (`ClassDecl.types_of_regions`).
What is looked at in a class are these types, in their order (`ClassDecl.written_items`),
and names of declarations that have them (`ClassDecl.types_of_items`).

So the names declared matter only as far as these types go: where the same of them are
known, the same is kept (`kept_of_agree`) and the same is rejected
(`Item.rejection_of_agree`).
-/

namespace IcFront

variable {ε : Type}

/-! ## Types written in declarations -/

mutual

/-- The types of the local variables in a statement, those in its blocks too. -/
def Stmt.types : Stmt ε → List TypeRef
  | .localVar type _ _ _ => [type]
  | .block body _ _ => typesOf body
  | .ifThen _ body _ => body.types
  | .ifElse _ body otherwise _ => body.types ++ otherwise.types
  | .while_ _ body _ => body.types
  | .assign .. | .call .. | .return_ .. | .break_ _ | .continue_ _ => []

/-- The types of the local variables in statements. -/
def Stmt.typesOf : List (Stmt ε) → List TypeRef
  | [] => []
  | s :: ss => s.types ++ typesOf ss

end

/-- The types of a method: of its result, its parameters and all its local variables. -/
def Method.types (m : Method ε) : List TypeRef :=
  m.type :: (m.formals.map (·.type) ++ Stmt.typesOf m.form.body)

/-- The types of the fields and methods of a class. -/
def ClassDecl.types (c : ClassDecl ε) : List TypeRef :=
  c.fields.map (·.type) ++ c.methods.flatMap Method.types

/-- The types that a program mentions. -/
def Program.types (p : Program ε) : List TypeRef := p.classes.flatMap ClassDecl.types

/-- The types of declarations. -/
def Declaration.typesOf (xs : List Declaration) : List TypeRef := xs.flatMap (·.type.types)

/-- The types that an item is about: its own, or those of declarations. -/
def Item.types : Item → List TypeRef
  | type t _ => [t]
  | name x _ earlier => Declaration.typesOf (x :: earlier)

theorem Declaration.typesOf_append (xs ys : List Declaration) :
    typesOf (xs ++ ys) = typesOf xs ++ typesOf ys := List.flatMap_append

theorem Declaration.typesOf_cons (x : Declaration) (xs : List Declaration) :
    typesOf (x :: xs) = x.type.types ++ typesOf xs := List.flatMap_cons

theorem Declaration.typesOf_cons_subset {S : List TypeRef} {x : Declaration}
    {xs : List Declaration} : typesOf (x :: xs) ⊆ S ↔ x.type.types ⊆ S ∧ typesOf xs ⊆ S := by
  rw [typesOf_cons, List.append_subset]

theorem Declaration.typesOf_concat_subset {S : List TypeRef} {x : Declaration}
    {xs : List Declaration} (hxs : typesOf xs ⊆ S) (hx : x.type.types ⊆ S) :
    typesOf (xs ++ [x]) ⊆ S := by
  rw [typesOf_append, List.append_subset, typesOf_cons_subset]
  exact ⟨hxs, hx, List.nil_subset _⟩

/-! ## Names declared that agree on types -/

section Agree

variable {declared declared' : List String}

theorem Declaration.resolvable_of_agree {x : Declaration}
    (h : ∀ t ∈ x.type.types, t.isKnown declared' = t.isKnown declared) :
    x.resolvable declared' = x.resolvable declared := by
  rw [resolvable, resolvable, List.all_eq, List.all_eq]
  refine decide_eq_decide.mpr (forall₂_congr fun t ht => ?_)
  rw [h t ht]

/-- Declarations are kept if the same of their types are known. -/
theorem kept_of_agree {xs : List Declaration}
    (h : ∀ t ∈ Declaration.typesOf xs, t.isKnown declared' = t.isKnown declared) :
    kept declared' xs = kept declared xs := by
  have hfilter : xs.filter (·.resolvable declared') = xs.filter (·.resolvable declared) := by
    refine List.filter_congr fun x hx => Declaration.resolvable_of_agree fun t ht => h t ?_
    exact List.mem_flatMap.mpr ⟨x, hx, ht⟩
  rw [kept, kept, hfilter]

/-- An item is rejected for the same reason if the same of its types are known. -/
theorem Item.rejection_of_agree {item : Item}
    (h : ∀ t ∈ item.types, t.isKnown declared' = t.isKnown declared) :
    item.rejection declared' = item.rejection declared := by
  cases item with
  | type t line =>
    have ht := h t (List.mem_singleton_self t)
    simp only [rejection, TypeRef.undefined?, ht]
  | name x place earlier =>
    have hx : x.resolvable declared' = x.resolvable declared := by
      refine Declaration.resolvable_of_agree fun t ht => h t ?_
      rw [types, Declaration.typesOf_cons]
      exact List.mem_append_left _ ht
    have hkept : kept declared' earlier = kept declared earlier := by
      refine kept_of_agree fun t ht => h t ?_
      rw [types, Declaration.typesOf_cons]
      exact List.mem_append_right _ ht
    simp only [rejection, hx, hkept]

end Agree

/-! ## Regions -/

section Regions

open Outline

mutual

/-- A statement declares local variables of its types only. -/
theorem Stmt.types_of_locals : ∀ s : Stmt ε, Declaration.typesOf s.locals ⊆ s.types
  | .localVar .. => by
    rw [locals, types]
    exact List.Subset.refl _
  | .ifThen _ body _ => by
    rw [locals, types]
    exact types_of_locals body
  | .ifElse _ body otherwise _ => by
    rw [locals, types, Declaration.typesOf_append]
    exact List.append_subset.mpr
      ⟨List.subset_append_of_subset_left _ (types_of_locals body),
        List.subset_append_of_subset_right _ (types_of_locals otherwise)⟩
  | .while_ _ body _ => by
    rw [locals, types]
    exact types_of_locals body
  | .block .. | .assign .. | .call .. | .return_ .. | .break_ _ | .continue_ _ => by
    rw [locals]
    · exact List.nil_subset _
    all_goals simp

end

theorem Stmt.types_of_flatMap_locals (ss : List (Stmt ε)) :
    Declaration.typesOf (ss.flatMap locals) ⊆ typesOf ss := by
  induction ss with
  | nil => exact List.nil_subset _
  | cons s ss ih =>
    rw [List.flatMap_cons, Declaration.typesOf_append, typesOf]
    exact List.append_subset.mpr ⟨List.subset_append_of_subset_left _ s.types_of_locals,
      List.subset_append_of_subset_right _ ih⟩

mutual

/-- The blocks of a statement declare nothing of other types than its own. -/
theorem Stmt.types_of_blocks (outer : Option Nat) (key : Nat) :
    ∀ s : Stmt ε, ∀ r ∈ regionsOf outer key s.blocks,
      Declaration.typesOf r.declarations ⊆ s.types
  | .block body _ _ => by
    intro r hr
    rw [blocks, regionsOf, regionsOf, List.append_nil, regions, List.mem_cons] at hr
    rw [types]
    rcases hr with rfl | hinner
    · exact types_of_flatMap_locals body
    · exact types_of_blocksOf _ _ body r hinner
  | .ifThen _ body _ => by
    rw [blocks, types]
    exact types_of_blocks outer key body
  | .ifElse _ body otherwise _ => by
    intro r hr
    rw [blocks, regionsOf_append, List.mem_append] at hr
    rw [types]
    rcases hr with hbody | hotherwise
    · exact List.subset_append_of_subset_left _ (types_of_blocks _ _ body r hbody)
    · exact List.subset_append_of_subset_right _ (types_of_blocks _ _ otherwise r hotherwise)
  | .while_ _ body _ => by
    rw [blocks, types]
    exact types_of_blocks outer key body
  | .assign .. | .call .. | .return_ .. | .break_ _ | .continue_ _ | .localVar .. => by
    intro r hr
    rw [blocks] at hr
    · exact absurd hr List.not_mem_nil
    all_goals simp

theorem Stmt.types_of_blocksOf (outer : Option Nat) (key : Nat) :
    ∀ ss : List (Stmt ε), ∀ r ∈ regionsOf outer key (blocksOf ss),
      Declaration.typesOf r.declarations ⊆ typesOf ss
  | [] => fun _ hr => absurd hr List.not_mem_nil
  | s :: ss => by
    intro r hr
    rw [blocksOf, regionsOf_append, List.mem_append] at hr
    rw [typesOf]
    rcases hr with hfirst | hrest
    · exact List.subset_append_of_subset_left _ (types_of_blocks _ _ s r hfirst)
    · exact List.subset_append_of_subset_right _ (types_of_blocksOf _ _ ss r hrest)

end

/-- Declarations of values have the types of these. -/
theorem Declaration.typesOf_map {α : Type} {x : α → Declaration} {type : α → TypeRef}
    (hx : ∀ a, (x a).type = .value (type a)) (as : List α) :
    typesOf (as.map x) = as.map type := by
  induction as with
  | nil => rfl
  | cons a as ih =>
    rw [List.map_cons, typesOf_cons, hx, ih]
    rfl

theorem Declaration.typesOf_fields (fs : List Field) :
    typesOf (fs.map Field.declaration) = fs.map (·.type) := typesOf_map (fun _ => rfl) fs

theorem Declaration.typesOf_formals (fs : List Formal) :
    typesOf (fs.map Formal.declaration) = fs.map (·.type) := typesOf_map (fun _ => rfl) fs

theorem Declaration.typesOf_classes (cs : List (ClassDecl ε)) :
    typesOf (cs.map ClassDecl.declaration) = [] := by
  induction cs with
  | nil => rfl
  | cons c cs ih => exact ih

/-- The declaration of a method spells types of the method. -/
theorem Method.types_of_declaration (m : Method ε) : m.declaration.type.types ⊆ m.types :=
  List.cons_subset_cons _ (List.subset_append_left _ _)

theorem Method.types_of_declarations (ms : List (Method ε)) :
    Declaration.typesOf (ms.map declaration) ⊆ ms.flatMap types := by
  induction ms with
  | nil => exact List.nil_subset _
  | cons m ms ih =>
    rw [List.map_cons, Declaration.typesOf_cons, List.flatMap_cons]
    exact List.append_subset.mpr ⟨List.subset_append_of_subset_left _ m.types_of_declaration,
      List.subset_append_of_subset_right _ ih⟩

theorem Method.types_of_regions (outer : Option Nat) (key : Nat) (m : Method ε) :
    ∀ r ∈ m.outline.regions outer key, Declaration.typesOf r.declarations ⊆ m.types := by
  intro r hr
  rw [outline, regions, List.mem_cons] at hr
  refine List.subset_cons_of_subset _ ?_
  rcases hr with rfl | hblock
  · rw [Declaration.typesOf_append, Declaration.typesOf_formals]
    exact List.append_subset.mpr ⟨List.subset_append_left _ _,
      List.subset_append_of_subset_right _ (Stmt.types_of_flatMap_locals _)⟩
  · exact List.subset_append_of_subset_right _ (Stmt.types_of_blocksOf _ _ _ r hblock)

theorem Method.types_of_regionsOf (outer : Option Nat) (key : Nat) (ms : List (Method ε)) :
    ∀ r ∈ regionsOf outer key (ms.map outline),
      Declaration.typesOf r.declarations ⊆ ms.flatMap types := by
  induction ms generalizing key with
  | nil => exact fun _ hr => absurd hr List.not_mem_nil
  | cons m ms ih =>
    intro r hr
    rw [List.map_cons, regionsOf, List.mem_append] at hr
    rw [List.flatMap_cons]
    rcases hr with hfirst | hrest
    · exact List.subset_append_of_subset_left _ (m.types_of_regions _ _ r hfirst)
    · exact List.subset_append_of_subset_right _ (ih _ r hrest)

theorem ClassDecl.types_of_declarations (c : ClassDecl ε) :
    Declaration.typesOf (c.fields.map Field.declaration ++ c.methods.map Method.declaration) ⊆
      c.types := by
  rw [Declaration.typesOf_append, Declaration.typesOf_fields]
  exact List.append_subset.mpr ⟨List.subset_append_left _ _,
    List.subset_append_of_subset_right _ (Method.types_of_declarations _)⟩

/-- The regions of a class declare nothing of other types than those of the class. -/
theorem ClassDecl.types_of_regions (outer : Option Nat) (key : Nat) (c : ClassDecl ε) :
    ∀ r ∈ c.outline.regions outer key, Declaration.typesOf r.declarations ⊆ c.types := by
  intro r hr
  rw [outline, regions, List.mem_cons] at hr
  rcases hr with rfl | hmethod
  · exact c.types_of_declarations
  · exact List.subset_append_of_subset_right _ (Method.types_of_regionsOf _ _ _ r hmethod)

end Regions

/-! ## Items -/

section Items

variable {S : List TypeRef} {place : String} {earlier : List Declaration}

/-- The names of declarations are about the types of these and of those before them. -/
theorem Item.types_of_names {xs : List Declaration} (hearlier : Declaration.typesOf earlier ⊆ S)
    (hxs : Declaration.typesOf xs ⊆ S) : ∀ item ∈ names place earlier xs, item.types ⊆ S := by
  induction xs generalizing earlier with
  | nil => exact fun _ h => absurd h List.not_mem_nil
  | cons x xs ih =>
    intro item hitem
    rw [Declaration.typesOf_cons_subset] at hxs
    rcases List.mem_cons.mp hitem with rfl | hrest
    · exact Declaration.typesOf_cons_subset.mpr ⟨hxs.1, hearlier⟩
    · exact ih (Declaration.typesOf_concat_subset hearlier hxs.1) hxs.2 item hrest

theorem Item.types_of_entered {xs : List Declaration}
    (hearlier : Declaration.typesOf earlier ⊆ S) (hxs : Declaration.typesOf xs ⊆ S) :
    ∀ item ∈ entered place earlier xs, item.types ⊆ S := by
  induction xs generalizing earlier with
  | nil => exact fun _ h => absurd h List.not_mem_nil
  | cons x xs ih =>
    intro item hitem
    rw [Declaration.typesOf_cons_subset] at hxs
    rw [entered, List.mem_append, List.mem_cons] at hitem
    rcases hitem with htype | rfl | hrest
    · obtain ⟨t, ht, rfl⟩ := List.mem_map.mp htype
      exact List.cons_subset.mpr ⟨hxs.1 ht, List.nil_subset _⟩
    · exact Declaration.typesOf_cons_subset.mpr ⟨hxs.1, hearlier⟩
    · exact ih (Declaration.typesOf_concat_subset hearlier hxs.1) hxs.2 item hrest

mutual

/-- Nothing that is looked at in a statement is about other types than its own. -/
theorem Stmt.types_of_items : ∀ s : Stmt ε, s.types ⊆ S → ∀ item ∈ s.items, item.types ⊆ S
  | .localVar .. => by
    intro hs item hitem
    rw [items] at hitem
    rw [types] at hs
    obtain rfl := List.mem_singleton.mp hitem
    exact hs
  | .block body _ _ => by
    intro hs item hitem
    rw [items] at hitem
    rw [types] at hs
    have hnone : Declaration.typesOf [] ⊆ S := List.nil_subset S
    exact types_of_itemsOf _ [] body hnone hs item hitem
  | .ifThen _ body _ => by
    rw [items, types]
    exact types_of_items body
  | .ifElse _ body otherwise _ => by
    intro hs item hitem
    rw [items, List.mem_append] at hitem
    rw [types, List.append_subset] at hs
    rcases hitem with hbody | hotherwise
    · exact types_of_items body hs.1 item hbody
    · exact types_of_items otherwise hs.2 item hotherwise
  | .while_ _ body _ => by
    rw [items, types]
    exact types_of_items body
  | .assign .. | .call .. | .return_ .. | .break_ _ | .continue_ _ => by
    intro _ item hitem
    rw [items] at hitem
    · exact absurd hitem List.not_mem_nil
    all_goals simp

theorem Stmt.types_of_itemsOf (place : String) (earlier : List Declaration) :
    ∀ ss : List (Stmt ε), Declaration.typesOf earlier ⊆ S → typesOf ss ⊆ S →
      ∀ item ∈ itemsOf place earlier ss, item.types ⊆ S
  | [] => fun _ _ _ hitem => absurd hitem List.not_mem_nil
  | s :: ss => by
    intro hearlier hs item hitem
    rw [itemsOf, List.mem_append, List.mem_append] at hitem
    rw [typesOf, List.append_subset] at hs
    have hlocals : Declaration.typesOf s.locals ⊆ S := List.Subset.trans s.types_of_locals hs.1
    rcases hitem with (hfirst | hnames) | hrest
    · exact types_of_items s hs.1 item hfirst
    · exact Item.types_of_names hearlier hlocals item hnames
    · refine types_of_itemsOf place _ ss ?_ hs.2 item hrest
      rw [Declaration.typesOf_append]
      exact List.append_subset.mpr ⟨hearlier, hlocals⟩

end

theorem Method.types_of_items (m : Method ε) (hm : m.types ⊆ S) :
    ∀ item ∈ m.items, item.types ⊆ S := by
  intro item hitem
  rw [types, List.cons_subset, List.append_subset] at hm
  obtain ⟨hresult, hformals, hbody⟩ := hm
  rw [← Declaration.typesOf_formals] at hformals
  rw [items, List.cons_append, List.mem_cons, List.mem_append] at hitem
  rcases hitem with rfl | hformal | hstatement
  · exact List.cons_subset.mpr ⟨hresult, List.nil_subset _⟩
  · exact Item.types_of_entered (List.nil_subset _) hformals item hformal
  · exact Stmt.types_of_itemsOf _ _ _ hformals hbody item hstatement

theorem Method.types_of_itemsOf (ms : List (Method ε))
    (hearlier : Declaration.typesOf earlier ⊆ S) (hms : ms.flatMap types ⊆ S) :
    ∀ item ∈ itemsOf place earlier ms, item.types ⊆ S := by
  induction ms generalizing earlier with
  | nil => exact fun _ h => absurd h List.not_mem_nil
  | cons m ms ih =>
    intro item hitem
    rw [List.flatMap_cons, List.append_subset] at hms
    have hdeclaration : m.declaration.type.types ⊆ S :=
      List.Subset.trans m.types_of_declaration hms.1
    rw [itemsOf, List.mem_append, List.mem_cons] at hitem
    rcases hitem with hmethod | rfl | hrest
    · exact m.types_of_items hms.1 item hmethod
    · exact Declaration.typesOf_cons_subset.mpr ⟨hdeclaration, hearlier⟩
    · exact ih (Declaration.typesOf_concat_subset hearlier hdeclaration) hms.2 item hrest

/-- Nothing that is looked at in a class is about other types than those of the class. -/
theorem ClassDecl.types_of_items (c : ClassDecl ε) : ∀ item ∈ c.items, item.types ⊆ c.types := by
  intro item hitem
  have hfields : Declaration.typesOf (c.fields.map Field.declaration) ⊆ c.types := by
    rw [Declaration.typesOf_fields]
    exact List.subset_append_left _ _
  rw [items, List.mem_append] at hitem
  rcases hitem with hfield | hmethod
  · exact Item.types_of_entered (List.nil_subset _) hfields item hfield
  · exact Method.types_of_itemsOf _ hfields (List.subset_append_right _ _) item hmethod

/-! ## Types that are looked at -/

/-- The type that an item is, if it is one. -/
def Item.written? : Item → Option TypeRef
  | type t _ => some t
  | name .. => none

theorem Item.written_names (place : String) (earlier xs : List Declaration) :
    (names place earlier xs).filterMap written? = [] := by
  induction xs generalizing earlier with
  | nil => rfl
  | cons x xs ih => exact ih _

theorem Item.written_entered (place : String) (earlier xs : List Declaration) :
    (entered place earlier xs).filterMap written? = Declaration.typesOf xs := by
  induction xs generalizing earlier with
  | nil => rfl
  | cons x xs ih =>
    have htypes : (x.type.types.map (Item.type · x.line)).filterMap written? = x.type.types := by
      rw [List.filterMap_map]
      exact List.filterMap_some
    rw [entered, List.filterMap_append, htypes, List.filterMap_cons_none rfl, ih,
      Declaration.typesOf_cons]

mutual

/-- The types looked at in a statement are its own, in their order. -/
theorem Stmt.written_items : ∀ s : Stmt ε, s.items.filterMap Item.written? = s.types
  | .localVar .. => by
    rw [items, types]
    rfl
  | .block body _ _ => by
    rw [items, types]
    exact written_itemsOf _ _ body
  | .ifThen _ body _ => by rw [items, types, written_items body]
  | .ifElse _ body otherwise _ => by
    rw [items, types, List.filterMap_append, written_items body, written_items otherwise]
  | .while_ _ body _ => by rw [items, types, written_items body]
  | .assign .. | .call .. | .return_ .. | .break_ _ | .continue_ _ => by
    rw [items, types]
    · rfl
    all_goals simp

theorem Stmt.written_itemsOf (place : String) (earlier : List Declaration) :
    ∀ ss : List (Stmt ε), (itemsOf place earlier ss).filterMap Item.written? = typesOf ss
  | [] => rfl
  | s :: ss => by
    rw [itemsOf, typesOf, List.filterMap_append, List.filterMap_append, written_items s,
      Item.written_names, List.append_nil, written_itemsOf place _ ss]

end

theorem Method.written_items (m : Method ε) : m.items.filterMap Item.written? = m.types := by
  have hresult : (Item.type m.type m.line).written? = some m.type := rfl
  rw [items, types, List.cons_append, List.filterMap_cons_some hresult, List.filterMap_append,
    Item.written_entered, Declaration.typesOf_formals, Stmt.written_itemsOf]

theorem Method.written_itemsOf (place : String) (earlier : List Declaration)
    (ms : List (Method ε)) :
    (itemsOf place earlier ms).filterMap Item.written? = ms.flatMap types := by
  induction ms generalizing earlier with
  | nil => rfl
  | cons m ms ih =>
    rw [itemsOf, List.filterMap_append, m.written_items, List.filterMap_cons_none rfl, ih,
      List.flatMap_cons]

/-- The types looked at in a class are those of the class, in their order. -/
theorem ClassDecl.written_items (c : ClassDecl ε) :
    c.items.filterMap Item.written? = c.types := by
  rw [items, types, List.filterMap_append, Item.written_entered, Declaration.typesOf_fields,
    Method.written_itemsOf]

end Items

/-- Where nothing of a class is rejected, all its types are known. -/
theorem ClassDecl.isKnown_of_accepted {declared : List String} {c : ClassDecl ε}
    (h : c.items.filterMap (·.rejection declared) = []) :
    ∀ t ∈ c.types, t.isKnown declared = true := by
  intro t ht
  rw [← c.written_items] at ht
  obtain ⟨item, hitem, hwritten⟩ := List.mem_filterMap.mp ht
  have hnone := List.filterMap_eq_nil_iff.mp h item hitem
  cases item with
  | name x place earlier => cases hwritten
  | type t' line =>
    obtain rfl := Option.some.inj hwritten
    by_cases hknown : t'.isKnown declared = true
    · exact hknown
    · rw [Item.rejection, TypeRef.undefined?, if_neg hknown] at hnone
      cases hnone

end IcFront
