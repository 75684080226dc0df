import IcFront.Proofs.Mentioned
import IcFront.Proofs.Moved
import IcFront.Proofs.Tables.Linkage

/-!
# A class in front of a program

What becomes of a program when a class comes in front of its classes that it does without
(`Program.Avoids`). The positions of its classes grow by one, and so does the graph of
their superclasses (`Shifted`), with the same edges accepted and the same faults
(`Avoids.linkFaults_eq`). Its regions move by the number of regions of the class in
front (`mem_loose_precededBy`), and keep what they kept (`Avoids.kept_eq`). If nothing is
wrong with the class by itself, the same items are rejected (`Avoids.rejections_eq`).

Keys move but for that of the global scope: `makeRoom` says where to.
-/

namespace IcFront

variable {ε : Type}

/-! ## A graph with one more key in front -/

/-- Whether a partial function is another one on keys that are greater by one, with
nothing after the key in front. -/
structure Shifted (next next' : Nat → Option Nat) : Prop where
  zero : next' 0 = none
  succ : ∀ i, next' (i + 1) = (next i).map (· + 1)

namespace Shifted

variable {next next' : Nat → Option Nat} (h : Shifted next next')
include h

theorem leads_succ {i k : Nat} : Leads next' (i + 1) k ↔ ∃ j, k = j + 1 ∧ Leads next i j := by
  rw [Leads, h.succ, Option.map_eq_some_iff]
  constructor
  · intro hex
    obtain ⟨j, hj, rfl⟩ := hex
    exact ⟨j, rfl, hj⟩
  · intro hex
    obtain ⟨j, rfl, hj⟩ := hex
    exact ⟨j, hj, rfl⟩

/-- Ways are the old ones. -/
theorem transGen_succ {i k : Nat} :
    Relation.TransGen (Leads next') (i + 1) k ↔
      ∃ j, k = j + 1 ∧ Relation.TransGen (Leads next) i j := by
  constructor
  · intro hway
    -- A way that starts behind the key in front never gets to it.
    induction hway with
    | single hstep =>
      obtain ⟨j, rfl, hj⟩ := h.leads_succ.mp hstep
      exact ⟨j, rfl, .single hj⟩
    | tail _ hstep ih =>
      obtain ⟨j, rfl, hj⟩ := ih
      obtain ⟨x, rfl, hx⟩ := h.leads_succ.mp hstep
      exact ⟨x, rfl, hj.tail hx⟩
  · intro hex
    obtain ⟨j, rfl, hway⟩ := hex
    exact Relation.TransGen.lift (· + 1) (fun x y hxy => h.leads_succ.mpr ⟨y, rfl, hxy⟩) i j hway

theorem not_lastOnCycle_zero : ¬ LastOnCycle next' 0 := by
  intro hlast
  obtain ⟨k, hk, -⟩ := Relation.TransGen.head'_iff.mp hlast.1
  rw [Leads, h.zero] at hk
  cases hk

theorem lastOnCycle_succ {i : Nat} : LastOnCycle next' (i + 1) ↔ LastOnCycle next i := by
  have hself : ∀ {x y : Nat}, Relation.TransGen (Leads next') (x + 1) (y + 1) ↔
      Relation.TransGen (Leads next) x y := by
    intro x y
    rw [h.transGen_succ]
    constructor
    · intro hex
      obtain ⟨j, hj, hway⟩ := hex
      exact Nat.succ.inj hj ▸ hway
    · intro hway
      exact ⟨y, rfl, hway⟩
  constructor
  · intro hlast
    refine ⟨hself.mp hlast.1, fun j hij hji => ?_⟩
    exact Nat.le_of_succ_le_succ (hlast.2 (j + 1) (hself.mpr hij) (hself.mpr hji))
  · intro hlast
    refine ⟨hself.mpr hlast.1, fun k hik hki => ?_⟩
    obtain ⟨j, rfl, hij⟩ := h.transGen_succ.mp hik
    exact Nat.succ_le_succ (hlast.2 j hij (hself.mp hki))

variable [DecidablePred (LastOnCycle next')]

theorem accepted_zero : accepted next' 0 = none := by
  rw [accepted, if_neg h.not_lastOnCycle_zero, h.zero]

/-- The same edges are accepted. -/
theorem accepted_succ [DecidablePred (LastOnCycle next)] (i : Nat) :
    accepted next' (i + 1) = (accepted next i).map (· + 1) := by
  by_cases hlast : LastOnCycle next i
  · rw [accepted, accepted, if_pos hlast, if_pos (h.lastOnCycle_succ.mpr hlast), Option.map_none]
  · rw [accepted, accepted, if_neg hlast, if_neg fun hl => hlast (h.lastOnCycle_succ.mp hl),
      h.succ]

end Shifted

/-! ## Keys -/

/-- Where a key goes when `m` scopes come in after the global scope. -/
def makeRoom (m k : Nat) : Nat := if k = 0 then 0 else k + m

theorem makeRoom_of_pos {k : Nat} (m : Nat) (hk : 0 < k) : makeRoom m k = k + m :=
  if_neg (Nat.pos_iff_ne_zero.mp hk)

theorem makeRoom_inj {m k l : Nat} : makeRoom m k = makeRoom m l ↔ k = l := by
  unfold makeRoom
  split <;> split <;> omega

theorem Region.moved_moved (m n : Nat) (r : Region) : (r.moved m).moved n = r.moved (m + n) := by
  simp only [moved, Option.map_map, List.map_map, Function.comp_def, Nat.add_assoc]

/-! ## Declarations with a name in front -/

theorem foldl_keepFirst_cons {α : Type} {name : α → String} {x : α} {before xs : List α}
    (h : ∀ y ∈ xs, name y ≠ name x) :
    xs.foldl (keepFirst name) (x :: before) = x :: xs.foldl (keepFirst name) before := by
  induction xs generalizing before with
  | nil => rfl
  | cons y ys ih =>
    have hy : (name x == name y) = false :=
      beq_eq_false_iff_ne.mpr (h y List.mem_cons_self).symm
    have hstep : keepFirst name (x :: before) y = x :: keepFirst name before y := by
      rw [keepFirst, keepFirst, List.any_cons, hy, Bool.false_or]
      split
      next => rfl
      next => rfl
    rw [List.foldl_cons, List.foldl_cons, hstep]
    exact ih fun z hz => h z (List.mem_cons_of_mem _ hz)

/-- A resolvable declaration in front of others is kept, and these as before, if none of
them has its name. -/
theorem kept_cons {declared : List String} {x : Declaration} {xs : List Declaration}
    (hx : x.resolvable declared = true) (h : ∀ y ∈ xs, y.name ≠ x.name) :
    kept declared (x :: xs) = x :: kept declared xs := by
  rw [kept, kept, firstWins, List.filter_cons_of_pos hx, List.foldl_cons]
  exact foldl_keepFirst_cons fun y hy => h y (List.mem_of_mem_filter hy)

/-- A type that does not name a class is known or not whether the class is declared or
not. -/
theorem TypeRef.isKnown_cons {t : TypeRef} {className : String} (h : t.base ≠ .user className)
    (declared : List String) : t.isKnown (className :: declared) = t.isKnown declared := by
  unfold isKnown
  split
  next => rfl
  next n hn =>
    have hne : n ≠ className := fun heq => h (heq ▸ hn)
    rw [List.contains_cons, beq_eq_false_iff_ne.mpr hne, Bool.false_or]

theorem TypeRef.isKnown_of_subset {t : TypeRef} {declared declared' : List String}
    (hsub : declared ⊆ declared') (h : t.isKnown declared = true) :
    t.isKnown declared' = true := by
  unfold isKnown at h ⊢
  split
  next => rfl
  next n hn =>
    rw [hn, List.contains_iff_mem] at h
    exact List.contains_iff_mem.mpr (hsub h)

/-- A name is no reason to reject another. -/
theorem Item.rejection_name_cons {declared : List String} {x y : Declaration}
    (hne : x.name ≠ y.name) (place : String) (earlier : List Declaration) :
    (name y place (x :: earlier)).rejection declared =
      (name y place earlier).rejection declared := by
  have hxy : (x.name == y.name) = false := beq_eq_false_iff_ne.mpr hne
  have hany : (kept declared (x :: earlier)).any (·.name == y.name) =
      (kept declared earlier).any (·.name == y.name) := by
    rw [kept, kept, firstWins, firstWins, any_foldl_keepFirst, any_foldl_keepFirst,
      List.nil_append, List.nil_append, List.filter_cons]
    split
    next => rw [List.any_cons, hxy, Bool.false_or]
    next => rfl
  simp only [rejection, hany]

theorem Item.rejection_names_cons {declared : List String} {x : Declaration} (place : String)
    {earlier xs : List Declaration} (h : ∀ y ∈ xs, x.name ≠ y.name) :
    (names place (x :: earlier) xs).filterMap (·.rejection declared) =
      (names place earlier xs).filterMap (·.rejection declared) := by
  induction xs generalizing earlier with
  | nil => rfl
  | cons y ys ih =>
    have hrest : (names place (x :: (earlier ++ [y])) ys).filterMap (·.rejection declared) =
        (names place (earlier ++ [y]) ys).filterMap (·.rejection declared) :=
      ih fun z hz => h z (List.mem_cons_of_mem _ hz)
    rw [names, names, List.filterMap_cons, List.filterMap_cons, List.cons_append, hrest,
      rejection_name_cons (h y List.mem_cons_self)]

/-- A class with which nothing is wrong is not in the way of more classes. -/
theorem ClassDecl.accepted_of_subset {declared declared' : List String} {c : ClassDecl ε}
    (h : c.items.filterMap (·.rejection declared) = []) (hsub : declared ⊆ declared') :
    c.items.filterMap (·.rejection declared') = [] := by
  rw [← h]
  -- All types of the class are known from the fewer names already.
  refine List.filterMap_congr fun item hitem => Item.rejection_of_agree fun t ht => ?_
  have hknown := c.isKnown_of_accepted h t (c.types_of_items item hitem ht)
  rw [hknown, TypeRef.isKnown_of_subset hsub hknown]

namespace Program

/-! ## The program with the class in front -/

/-- A program with one more class in front. -/
def precededBy (p : Program ε) (c : ClassDecl ε) : Program ε :=
  { p with classes := c :: p.classes }

/-- Whether a program does without classes of a name: it declares none, no class of it
extends one, and no type in it names one. -/
structure Avoids (p : Program ε) (className : String) : Prop where
  declared : className ∉ p.declared
  superclasses : ∀ c ∈ p.classes, c.superclass ≠ some className
  types : ∀ t ∈ p.types, t.base ≠ .user className

variable {p : Program ε} {c : ClassDecl ε} {name : String} {r : Region} {k : Nat}

/-- The regions of a program declare nothing of other types than those it mentions. -/
theorem types_of_loose (h : (r, k) ∈ p.loose name) :
    Declaration.typesOf r.declarations ⊆ p.types := by
  rcases mem_loose_iff.mp h with ⟨rfl, -⟩ | ⟨i, c, off, r₀, hc, hr₀, rfl, -⟩
  · rw [Declaration.typesOf_classes]
    exact List.nil_subset _
  · intro t ht
    exact List.mem_flatMap.mpr ⟨c, List.mem_of_getElem? hc,
      c.types_of_regions none 0 r₀ (List.mem_of_getElem? hr₀) ht⟩

theorem denoted?_precededBy {className : String} (hne : className ≠ c.name) :
    (p.precededBy c).denoted? className = (p.denoted? className).map (· + 1) := by
  have hfirst : (c.name == className) = false := beq_eq_false_iff_ne.mpr hne.symm
  show (c.name :: p.declared).findIdx? (· == className) = _
  rw [List.findIdx?_cons, hfirst]
  rfl

theorem denoted?_precededBy_self : (p.precededBy c).denoted? c.name = some 0 := by
  show (c.name :: p.declared).findIdx? (· == c.name) = some 0
  rw [List.findIdx?_cons, beq_self_eq_true]
  rfl

theorem classKeys_precededBy :
    (p.precededBy c).classKeys = 1 :: p.classKeys.map (· + c.outline.size) := by
  show 1 :: Outline.keys (1 + c.outline.size) (p.classes.map ClassDecl.outline) = _
  rw [Outline.keys_moved]
  rfl

theorem classKey_precededBy_succ {i : Nat} (hi : i < p.classes.length) :
    (p.precededBy c).classKey (i + 1) = p.classKey i + c.outline.size := by
  rw [classKey, classKeys_precededBy, List.getD_cons_succ, List.getD_eq_getElem?_getD,
    List.getElem?_map, p.getElem?_classKeys hi]
  rfl

/-- Regions move, all by the same number. -/
theorem mem_loose_precededBy (hr : (r, k) ∈ p.loose name) (hk : 0 < k) :
    (r.moved c.outline.size, k + c.outline.size) ∈ (p.precededBy c).loose name := by
  rcases mem_loose_iff.mp hr with ⟨-, rfl⟩ | ⟨i, x, off, r₀, hx, hr₀, rfl, rfl⟩
  · exact absurd hk (Nat.lt_irrefl 0)
  · refine mem_loose_iff.mpr (Or.inr ⟨i + 1, x, off, r₀, hx, hr₀, ?_, ?_⟩)
    · rw [Region.moved_moved, classKey_precededBy_succ (List.getElem?_eq_some_iff.mp hx).1]
    · rw [classKey_precededBy_succ (List.getElem?_eq_some_iff.mp hx).1, Nat.add_right_comm]

namespace Avoids

variable (h : p.Avoids c.name)
include h

/-- No other class has the name of the class in front. -/
theorem name_ne {y : Declaration} (hy : y ∈ p.classes.map ClassDecl.declaration) :
    y.name ≠ c.name := by
  obtain ⟨x, hx, rfl⟩ := List.mem_map.mp hy
  intro heq
  exact h.declared (heq ▸ List.mem_map_of_mem hx)

theorem isKnown_eq {t : TypeRef} (ht : t ∈ p.types) :
    t.isKnown (p.precededBy c).declared = t.isKnown p.declared :=
  TypeRef.isKnown_cons (h.types t ht) p.declared

/-- Regions keep what they kept. -/
theorem kept_eq (hr : (r, k) ∈ p.loose name) :
    kept (p.precededBy c).declared r.declarations = kept p.declared r.declarations :=
  kept_of_agree fun _ ht => h.isKnown_eq (types_of_loose hr ht)

/-- The global scope keeps the class in front as well. -/
theorem kept_classes_eq :
    kept (p.precededBy c).declared ((p.precededBy c).classes.map ClassDecl.declaration) =
      c.declaration :: kept p.declared (p.classes.map ClassDecl.declaration) := by
  have hrest := h.kept_eq (List.mem_cons_self : (_, 0) ∈ p.loose "")
  show kept _ (c.declaration :: p.classes.map ClassDecl.declaration) = _
  rw [kept_cons rfl fun y hy => h.name_ne hy, hrest]

/-! ## Superclasses -/

theorem superclass_ne {i : Nat} {x : ClassDecl ε} (hx : p.classes[i]? = some x)
    {superclass : String} (hs : x.superclass = some superclass) : superclass ≠ c.name := by
  intro heq
  exact h.superclasses x (List.mem_of_getElem? hx) (heq ▸ hs)

/-- The graph of superclasses is the old one, on positions that are greater by one. -/
theorem shifted (hc : c.superclass = none) :
    Shifted p.superclass? (p.precededBy c).superclass? where
  zero := by
    show ((some c).bind (·.superclass)).bind (p.precededBy c).denoted? = none
    rw [Option.bind_some, hc, Option.bind_none]
  succ i := by
    show (p.classes[i]?.bind (·.superclass)).bind (p.precededBy c).denoted? = _
    rw [superclass?]
    cases hx : p.classes[i]? with
    | none => rfl
    | some x =>
      rw [Option.bind_some]
      cases hs : x.superclass with
      | none => rfl
      | some superclass =>
        rw [Option.bind_some, Option.bind_some, denoted?_precededBy (h.superclass_ne hx hs)]

theorem linkFault_succ (hc : c.superclass = none) (i : Nat) :
    (p.precededBy c).linkFault (i + 1) = p.linkFault i := by
  have hshift := h.shifted hc
  show p.classes[i]?.bind _ = _
  rw [linkFault]
  cases hx : p.classes[i]? with
  | none => rfl
  | some x =>
    rw [Option.bind_some, Option.bind_some]
    cases hs : x.superclass with
    | none => rfl
    | some superclass =>
      rw [Option.bind_some, Option.bind_some, denoted?_precededBy (h.superclass_ne hx hs)]
      simp only [Option.map_eq_none_iff, hshift.lastOnCycle_succ]

/-- The superclasses of the same classes are refused. -/
theorem linkFaults_eq (hc : c.superclass = none) :
    (List.range (p.precededBy c).classes.length).filterMap (p.precededBy c).linkFault =
      (List.range p.classes.length).filterMap p.linkFault := by
  have hfirst : (p.precededBy c).linkFault 0 = none := linkFault_eq_none rfl hc
  have hlength : (p.precededBy c).classes.length = p.classes.length + 1 := rfl
  rw [hlength, List.range_succ_eq_map, List.filterMap_cons_none hfirst, List.filterMap_map]
  exact List.filterMap_congr fun i _ => h.linkFault_succ hc i

/-- Classes belong below the same class, or below the global scope. -/
theorem parentKey_succ (hc : c.superclass = none) (i : Nat) :
    (p.precededBy c).parentKey (i + 1) = makeRoom c.outline.size (p.parentKey i) := by
  have hacc := (h.shifted hc).accepted_succ i
  cases hi : accepted p.superclass? i with
  | none =>
    rw [hi, Option.map_none] at hacc
    rw [parentKey_of_not_accepted hacc, parentKey_of_not_accepted hi]
    rfl
  | some j =>
    rw [hi, Option.map_some] at hacc
    have hj := lt_of_accepted hi
    rw [parentKey_of_accepted hacc, parentKey_of_accepted hi, classKey_precededBy_succ hj,
      makeRoom_of_pos _ (p.classKey_pos hj)]

theorem parentKey_zero (hc : c.superclass = none) : (p.precededBy c).parentKey 0 = 0 :=
  parentKey_of_not_accepted (h.shifted hc).accepted_zero

/-- Of the classes behind the one in front, the same ones belong below a scope. -/
theorem placed_behind (hc : c.superclass = none) (k : Nat) :
    (((List.range p.classes.length).map Nat.succ).filter fun x =>
        (p.precededBy c).parentKey x = makeRoom c.outline.size k).map (p.precededBy c).classKey =
      (p.placedUnder p.classes.length k).map (· + c.outline.size) := by
  have hsame : (List.range p.classes.length).filter
        ((fun x => decide ((p.precededBy c).parentKey x = makeRoom c.outline.size k)) ∘
          Nat.succ) =
      (List.range p.classes.length).filter fun x => p.parentKey x = k := by
    refine List.filter_congr fun x _ => ?_
    simp only [Function.comp_apply, Nat.succ_eq_add_one, h.parentKey_succ hc, makeRoom_inj]
  rw [List.filter_map, List.map_map, placedUnder, List.map_map, hsame]
  refine List.map_congr_left fun x hx => ?_
  exact classKey_precededBy_succ (List.mem_range.mp (List.mem_of_mem_filter hx))

/-- Below a scope are the same classes, and below the global scope the class in front. -/
theorem placedUnder_eq (hc : c.superclass = none) (k : Nat) :
    (p.precededBy c).placedUnder (p.precededBy c).classes.length (makeRoom c.outline.size k) =
      (if k = 0 then [1] else []) ++
        (p.placedUnder p.classes.length k).map (· + c.outline.size) := by
  have hlength : (p.precededBy c).classes.length = p.classes.length + 1 := rfl
  rw [placedUnder, hlength, List.range_succ_eq_map, List.filter_cons, h.parentKey_zero hc]
  -- Room is made after the global scope only, so no other key goes to where that is.
  by_cases hk : k = 0
  · subst hk
    have hzero : decide (0 = makeRoom c.outline.size 0) = true := rfl
    rw [if_pos rfl, if_pos hzero, List.map_cons, h.placed_behind hc]
    rfl
  · have hne : ¬ decide (0 = makeRoom c.outline.size k) = true := by
      rw [decide_eq_true_eq]
      intro hzero
      have hroom : makeRoom c.outline.size 0 = makeRoom c.outline.size k := hzero
      exact hk (makeRoom_inj.mp hroom).symm
    rw [if_neg hk, if_neg hne, h.placed_behind hc, List.nil_append]

/-! ## Items -/

/-- The same names of classes are rejected. -/
theorem rejections_names (place : String) :
    (Item.names place [] (c.declaration :: p.classes.map ClassDecl.declaration)).filterMap
        (·.rejection (p.precededBy c).declared) =
      (Item.names place [] (p.classes.map ClassDecl.declaration)).filterMap
        (·.rejection p.declared) := by
  have hfirst :
      (Item.name c.declaration place []).rejection (p.precededBy c).declared = none := by
    rw [Item.rejection_name_of_resolvable rfl]
    rfl
  rw [Item.names, List.filterMap_cons_none hfirst, List.nil_append,
    Item.rejection_names_cons place fun y hy => (h.name_ne hy).symm]
  refine List.filterMap_congr fun item hitem => Item.rejection_of_agree fun t ht => ?_
  -- Classes have no types.
  have hclasses : Declaration.typesOf (p.classes.map ClassDecl.declaration) ⊆ [] := by
    rw [Declaration.typesOf_classes]
    exact List.nil_subset _
  exact absurd (Item.types_of_names (List.nil_subset _) hclasses item hitem ht) List.not_mem_nil

/-- The same is rejected in the classes of the program. -/
theorem rejections_classes :
    (p.classes.flatMap ClassDecl.items).filterMap (·.rejection (p.precededBy c).declared) =
      (p.classes.flatMap ClassDecl.items).filterMap (·.rejection p.declared) := by
  refine List.filterMap_congr fun item hitem => Item.rejection_of_agree fun t ht => ?_
  obtain ⟨x, hx, hitem⟩ := List.mem_flatMap.mp hitem
  exact h.isKnown_eq (List.mem_flatMap.mpr ⟨x, hx, x.types_of_items item hitem ht⟩)

/-- If nothing is wrong with the class by itself, the same items are rejected. -/
theorem rejections_eq (name : String)
    (hown : c.items.filterMap (·.rejection [c.name]) = []) :
    ((p.precededBy c).items name).filterMap (·.rejection (p.precededBy c).declared) =
      (p.items name).filterMap (·.rejection p.declared) := by
  have hsub : [c.name] ⊆ (p.precededBy c).declared :=
    List.cons_subset.mpr ⟨List.mem_cons_self, List.nil_subset _⟩
  show (Item.names _ [] (c.declaration :: p.classes.map ClassDecl.declaration) ++
      (c.items ++ p.classes.flatMap ClassDecl.items)).filterMap _ = _
  rw [List.filterMap_append, List.filterMap_append, h.rejections_names,
    c.accepted_of_subset hown hsub, h.rejections_classes, List.nil_append, items,
    List.filterMap_append]

end Avoids

end Program

end IcFront
