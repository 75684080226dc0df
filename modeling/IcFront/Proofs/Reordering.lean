import IcFront.Proofs.Mentioned
import IcFront.Proofs.Moved
import IcFront.Proofs.Superclasses
import Mathlib.Data.List.Perm.Basic

/-!
# Classes in another order

Two programs are `Reordered` if they declare the same classes, in any two orders, with
distinct names and without cycles of inheritance. Then a name means the same class in
both (`Reordered.denoted?_both`), so that they have the same declarations in the same
places (`kept_congr`) and the same faults (`Reordered.rejections_perm`,
`Reordered.linkFaults_perm`).

What differs are the keys of scopes. `Counterparts` relates a key of one program to the
key of the other where the same part of the same class stands, and every key has exactly
one counterpart.
-/

namespace IcFront

variable {α ε : Type}

/-! ## Distinct names -/

theorem foldl_keepFirst_of_nodup {name : α → String} {before xs : List α}
    (h : ((before ++ xs).map name).Nodup) : xs.foldl (keepFirst name) before = before ++ xs := by
  induction xs generalizing before with
  | nil => rw [List.foldl_nil, List.append_nil]
  | cons x xs ih =>
    have hfree : before.any (name · == name x) = false := by
      rw [List.any_eq_false]
      intro y hy
      rw [List.map_append, List.map_cons, List.nodup_append] at h
      rw [beq_iff_eq]
      exact h.2.2 _ (List.mem_map_of_mem hy) _ List.mem_cons_self
    rw [List.append_cons] at h ⊢
    rw [List.foldl_cons, keepFirst, hfree]
    exact ih h

/-- Of things with distinct names all are kept. -/
theorem firstWins_of_nodup {name : α → String} {xs : List α} (h : (xs.map name).Nodup) :
    firstWins name xs = xs := by
  rw [firstWins, foldl_keepFirst_of_nodup, List.nil_append]
  exact h

/-- Among things with distinct names a name finds the one that has it. -/
theorem find?_eq_some_iff_of_nodup {name : α → String} {xs : List α} (h : (xs.map name).Nodup)
    {n : String} {x : α} : xs.find? (name · == n) = some x ↔ x ∈ xs ∧ name x = n := by
  have hname : ∀ y, xs.find? (name · == n) = some y → name y = n := by
    intro y hy
    have hfound := List.find?_some hy
    exact eq_of_beq hfound
  constructor
  · intro hx
    exact ⟨List.mem_of_find?_eq_some hx, hname x hx⟩
  · intro hx
    obtain ⟨hmem, rfl⟩ := hx
    cases hy : xs.find? (name · == name x) with
    | none =>
      have hnone := List.find?_eq_none.mp hy x hmem
      exact absurd (beq_self_eq_true (name x)) hnone
    | some y =>
      rw [List.inj_on_of_nodup_map h (List.mem_of_find?_eq_some hy) hmem (hname y hy)]

/-- The order of things with distinct names does not matter for finding one. -/
theorem find?_perm {name : α → String} {xs ys : List α} (hperm : ys.Perm xs)
    (h : (xs.map name).Nodup) (n : String) :
    ys.find? (name · == n) = xs.find? (name · == n) := by
  have h' : (ys.map name).Nodup := (hperm.map name).nodup_iff.mpr h
  ext x
  rw [find?_eq_some_iff_of_nodup h, find?_eq_some_iff_of_nodup h', hperm.mem_iff]

/-! ## Declared names as a set -/

section Declared

variable {declared declared' : List String}
  (h : ∀ className, declared'.contains className = declared.contains className)
include h

theorem TypeRef.isKnown_congr (type : TypeRef) :
    type.isKnown declared' = type.isKnown declared := by
  unfold TypeRef.isKnown
  cases type.base with
  | primitive p => rfl
  | user className => exact h className

/-- What is kept depends only on which names are declared. -/
theorem kept_congr (xs : List Declaration) : kept declared' xs = kept declared xs :=
  kept_of_agree fun type _ => type.isKnown_congr h

theorem Item.rejection_congr (item : Item) :
    item.rejection declared' = item.rejection declared :=
  rejection_of_agree fun type _ => type.isKnown_congr h

end Declared

/-- Nothing is rejected of distinct names. -/
theorem Item.filterMap_rejection_names (declared : List String) (place : String)
    {earlier xs : List Declaration} (h : ((earlier ++ xs).map (·.name)).Nodup) :
    (Item.names place earlier xs).filterMap (·.rejection declared) = [] := by
  induction xs generalizing earlier with
  | nil => rfl
  | cons x xs ih =>
    have hfree : (kept declared earlier).any (·.name == x.name) = false := by
      rw [kept, firstWins, any_foldl_keepFirst, List.nil_append, List.any_eq_false]
      intro y hy
      rw [List.map_append, List.map_cons, List.nodup_append] at h
      rw [beq_iff_eq]
      exact h.2.2 _ (List.mem_map_of_mem (List.mem_of_mem_filter hy)) _ List.mem_cons_self
    have haccepted : (Item.name x place earlier).rejection declared = none := by
      simp only [rejection, hfree, Bool.false_eq_true, and_false, if_false]
    rw [List.append_cons] at h
    rw [names, List.filterMap_cons_none haccepted]
    exact ih h

namespace Program

/-! ## What names denote -/

theorem getElem?_of_denoted? {p : Program ε} {className : String} {i : Nat}
    (h : p.denoted? className = some i) :
    ∃ c, p.classes[i]? = some c ∧ c.name = className := by
  obtain ⟨hlt, heq, -⟩ := List.findIdx?_eq_some_iff_getElem.mp h
  rw [declared, List.length_map] at hlt
  refine ⟨p.classes[i], List.getElem?_eq_getElem hlt, ?_⟩
  simpa [declared] using heq

/-- Among distinct names each denotes the class that has it. -/
theorem denoted?_eq_some_iff {p : Program ε} (hdistinct : p.declared.Nodup) {className : String}
    {i : Nat} :
    p.denoted? className = some i ↔ ∃ c, p.classes[i]? = some c ∧ c.name = className := by
  refine ⟨getElem?_of_denoted?, fun hex => ?_⟩
  obtain ⟨c, hc, rfl⟩ := hex
  have hmem : c.name ∈ p.declared := List.mem_map_of_mem (List.mem_of_getElem? hc)
  cases hj : p.denoted? c.name with
  | none => exact absurd hmem ((p.denoted?_eq_none_iff c.name).mp hj)
  | some j =>
    obtain ⟨c', hc', hname⟩ := getElem?_of_denoted? hj
    have hlen : i < p.declared.length := by
      rw [declared, List.length_map]
      exact (List.getElem?_eq_some_iff.mp hc).1
    have hsame : p.declared[i]? = p.declared[j]? := by
      rw [declared, List.getElem?_map, List.getElem?_map, hc, hc', Option.map_some,
        Option.map_some, hname]
    rw [(List.getElem?_inj hlen hdistinct).mp hsame]

/-! ## Reordered programs -/

/-- The same classes in any two orders, if they have distinct names and no class inherits
from itself. -/
structure Reordered (p p' : Program ε) : Prop where
  perm : p'.classes.Perm p.classes
  distinct : p.declared.Nodup
  acyclic : Acyclic p.superclass?

namespace Reordered

variable {p p' : Program ε} (h : Reordered p p')
include h

theorem declared_perm : p'.declared.Perm p.declared := h.perm.map _

theorem distinct' : p'.declared.Nodup := h.declared_perm.nodup_iff.mpr h.distinct

theorem contains_eq (className : String) :
    p'.declared.contains className = p.declared.contains className := by
  rw [Bool.eq_iff_iff, List.contains_iff_mem, List.contains_iff_mem, h.declared_perm.mem_iff]

/-- A name denotes the same class in both orders, or no class in either. -/
theorem denoted?_both (className : String) :
    (p.denoted? className = none ∧ p'.denoted? className = none) ∨
      ∃ i j c, p.denoted? className = some i ∧ p'.denoted? className = some j ∧
        p.classes[i]? = some c ∧ p'.classes[j]? = some c ∧ c.name = className := by
  by_cases hmem : className ∈ p.declared
  · obtain ⟨c, hc, rfl⟩ := List.mem_map.mp hmem
    obtain ⟨i, hi⟩ := List.mem_iff_getElem?.mp hc
    obtain ⟨j, hj⟩ := List.mem_iff_getElem?.mp (h.perm.mem_iff.mpr hc)
    exact Or.inr ⟨i, j, c, (denoted?_eq_some_iff h.distinct).mpr ⟨c, hi, rfl⟩,
      (denoted?_eq_some_iff h.distinct').mpr ⟨c, hj, rfl⟩, hi, hj, rfl⟩
  · refine Or.inl ⟨(p.denoted?_eq_none_iff className).mpr hmem,
      (p'.denoted?_eq_none_iff className).mpr ?_⟩
    rwa [h.declared_perm.mem_iff]

/-- A class of one order has a place in the other, which its name denotes. -/
theorem denoted?_of_getElem? {j : Nat} {c : ClassDecl ε} (hc : p'.classes[j]? = some c) :
    ∃ i, p.denoted? c.name = some i ∧ p.classes[i]? = some c := by
  have hj := (denoted?_eq_some_iff h.distinct').mpr ⟨c, hc, rfl⟩
  rcases h.denoted?_both c.name with ⟨-, hnone⟩ | ⟨i, j', c', hi, hj', hci, hcj', -⟩
  · exact absurd (hj.symm.trans hnone) (by simp)
  · obtain rfl := Option.some.inj (hj.symm.trans hj')
    obtain rfl := Option.some.inj (hc.symm.trans hcj')
    exact ⟨i, hi, hci⟩

/-- A cycle in one order would be one in the other. -/
theorem acyclic' : Acyclic p'.superclass? := by
  let place (j : Nat) : Nat := (p'.classes[j]?.bind fun c => p.denoted? c.name).getD 0
  have hplace : ∀ {j : Nat} {c : ClassDecl ε}, p'.classes[j]? = some c →
      p.denoted? c.name = some (place j) ∧ p.classes[place j]? = some c := by
    intro j c hc
    obtain ⟨i, hi, hci⟩ := h.denoted?_of_getElem? hc
    have hij : place j = i := by
      show (p'.classes[j]?.bind fun c => p.denoted? c.name).getD 0 = i
      rw [hc, Option.bind_some, hi, Option.getD_some]
    rw [hij]
    exact ⟨hi, hci⟩
  have hstep : ∀ j k, Leads p'.superclass? j k → Leads p.superclass? (place j) (place k) := by
    intro j k hjk
    obtain ⟨superclass, hbind, hk⟩ := Option.bind_eq_some_iff.mp hjk
    obtain ⟨c, hc, hsuper⟩ := Option.bind_eq_some_iff.mp hbind
    obtain ⟨c', hc', rfl⟩ := getElem?_of_denoted? hk
    show p.superclass? (place j) = some (place k)
    rw [superclass?_eq (hplace hc).2 hsuper, (hplace hc').1]
  intro j hj
  exact h.acyclic (place j) (Relation.TransGen.lift place hstep j j hj)

theorem symm : Reordered p' p := ⟨h.perm.symm, h.distinct', h.acyclic'⟩

/-! ## Faults -/

/-- The same items are rejected of both, class by class. -/
theorem rejections_perm (name : String) :
    ((p'.items name).filterMap (·.rejection p'.declared)).Perm
      ((p.items name).filterMap (·.rejection p.declared)) := by
  have hnames : ∀ {q : Program ε} (declared : List String), q.declared.Nodup →
      (q.items name).filterMap (·.rejection declared) =
        (q.classes.flatMap ClassDecl.items).filterMap (·.rejection declared) := by
    intro q declared hq
    rw [items, List.filterMap_append, Item.filterMap_rejection_names, List.nil_append]
    rw [List.nil_append, List.map_map]
    exact hq
  have hsame : (fun item : Item => item.rejection p'.declared) = (·.rejection p.declared) :=
    funext (Item.rejection_congr h.contains_eq)
  rw [hnames _ h.distinct, hnames _ h.distinct', hsame]
  exact (h.perm.flatMap fun c _ => .refl c.items).filterMap _

end Reordered

/-- Without cycles every edge is accepted. -/
theorem accepted_of_acyclic {next : Nat → Option Nat} [DecidablePred (LastOnCycle next)]
    (hac : Acyclic next) (i : Nat) : accepted next i = next i :=
  if_neg fun hlast => hac i hlast.1

/-- Of classes with distinct names all are kept. -/
theorem kept_classes {p : Program ε} (hdistinct : p.declared.Nodup) (declared : List String) :
    kept declared (p.classes.map ClassDecl.declaration) =
      p.classes.map ClassDecl.declaration := by
  have hall : (p.classes.map ClassDecl.declaration).filter (·.resolvable declared) =
      p.classes.map ClassDecl.declaration := by
    rw [List.filter_eq_self]
    intro x hx
    obtain ⟨c, -, rfl⟩ := List.mem_map.mp hx
    rfl
  rw [kept, hall, firstWins_of_nodup]
  rw [List.map_map]
  exact hdistinct

/-- What is wrong with the superclass of a class that inherits from itself in no way:
that its name is not declared. -/
def unresolved? (declared : List String) (c : ClassDecl ε) : Option Diagnostic :=
  c.superclass.bind fun superclass =>
    if declared.contains superclass then none
    else some ⟨.unresolvedSuperclass c.name superclass, c.line⟩

theorem linkFault_of_acyclic {p : Program ε} (hac : Acyclic p.superclass?) {i : Nat}
    {c : ClassDecl ε} (hc : p.classes[i]? = some c) :
    p.linkFault i = unresolved? p.declared c := by
  cases hs : c.superclass with
  | none => rw [linkFault_eq_none hc hs, unresolved?, hs, Option.bind_none]
  | some superclass =>
    have hlast : ¬ LastOnCycle p.superclass? i := fun hlast => hac i hlast.1
    rw [linkFault_eq hc hs, unresolved?, hs, Option.bind_some, if_neg hlast]
    simp only [denoted?_eq_none_iff, List.contains_iff_mem, ite_not]

theorem linkFaults_of_acyclic {p : Program ε} (hac : Acyclic p.superclass?) :
    (List.range p.classes.length).filterMap p.linkFault =
      p.classes.filterMap (unresolved? p.declared) := by
  have hclasses : (List.range p.classes.length).map (p.classes[·]?) = p.classes.map some :=
    List.ext_getElem (by simp) fun i hi hi' => by simp
  have hfault : ∀ i ∈ List.range p.classes.length,
      p.linkFault i = (p.classes[i]?).bind (unresolved? p.declared) := by
    intro i hi
    have hc := List.getElem?_eq_getElem (List.mem_range.mp hi)
    rw [linkFault_of_acyclic hac hc, hc, Option.bind_some]
  calc (List.range p.classes.length).filterMap p.linkFault
      = (List.range p.classes.length).filterMap
          ((·.bind (unresolved? p.declared)) ∘ (p.classes[·]?)) := List.filterMap_congr hfault
    _ = (p.classes.map some).filterMap (·.bind (unresolved? p.declared)) := by
      rw [← List.filterMap_map, hclasses]
    _ = p.classes.filterMap (unresolved? p.declared) := by
      rw [List.filterMap_map]
      rfl

/-- The superclasses of the same classes are refused. -/
theorem Reordered.linkFaults_perm {p p' : Program ε} (h : Reordered p p') :
    ((List.range p'.classes.length).filterMap p'.linkFault).Perm
      ((List.range p.classes.length).filterMap p.linkFault) := by
  have hsame : (unresolved? p'.declared : ClassDecl ε → Option Diagnostic) =
      unresolved? p.declared := by
    funext c
    simp only [unresolved?, h.contains_eq]
  rw [linkFaults_of_acyclic h.acyclic, linkFaults_of_acyclic h.acyclic', hsame]
  exact h.perm.filterMap _

/-! ## Counterparts -/

/-- Keys of scopes in two programs that stand for each other: both are those of the global
scope, or of the same part of the same class. -/
def Counterparts (p p' : Program ε) (k k' : Nat) : Prop :=
  (k = 0 ∧ k' = 0) ∨ ∃ i j off c, p.classes[i]? = some c ∧ p'.classes[j]? = some c ∧
    off < c.outline.size ∧ k = p.classKey i + off ∧ k' = p'.classKey j + off

variable {p p' : Program ε} {k k' : Nat}

theorem Counterparts.symm (h : Counterparts p p' k k') : Counterparts p' p k' k := by
  rcases h with ⟨hk, hk'⟩ | ⟨i, j, off, c, hi, hj, hoff, hk, hk'⟩
  · exact Or.inl ⟨hk', hk⟩
  · exact Or.inr ⟨j, i, off, c, hj, hi, hoff, hk', hk⟩

/-- The keys of the same class stand for each other. -/
theorem counterparts_classKey {i j : Nat} {c : ClassDecl ε} (hi : p.classes[i]? = some c)
    (hj : p'.classes[j]? = some c) : Counterparts p p' (p.classKey i) (p'.classKey j) :=
  Or.inr ⟨i, j, 0, c, hi, hj, Nat.succ_pos _, rfl, rfl⟩

/-- Only the global scope stands for the global scope. -/
theorem Counterparts.eq_zero (h : Counterparts p p' 0 k') : k' = 0 := by
  rcases h with ⟨-, hk'⟩ | ⟨i, j, off, c, hi, -, -, hzero, -⟩
  · exact hk'
  · have := p.classKey_pos (List.getElem?_eq_some_iff.mp hi).1
    omega

/-- The region of a key of a class, as it stands in the class. -/
theorem getElem?_regions_of_lt {off : Nat} {o : Outline} (hoff : off < o.size) :
    ∃ r, (o.regions none 0)[off]? = some r :=
  ⟨_, List.getElem?_eq_getElem (Outline.length_regions none 0 o ▸ hoff)⟩

/-- Keys that stand for each other are those of regions that are the same but for the
positions they name. -/
theorem Counterparts.regions {name : String} (h : Counterparts p p' k k') :
    (k = 0 ∧ k' = 0) ∨ ∃ i j r, (Region.moved (p.classKey i) r, k) ∈ p.loose name ∧
      (Region.moved (p'.classKey j) r, k') ∈ p'.loose name := by
  rcases h with hzero | ⟨i, j, off, c, hi, hj, hoff, rfl, rfl⟩
  · exact Or.inl hzero
  · obtain ⟨r, hr⟩ := getElem?_regions_of_lt hoff
    exact Or.inr ⟨i, j, r, mem_loose_iff.mpr (Or.inr ⟨i, c, off, r, hi, hr, rfl, rfl⟩),
      mem_loose_iff.mpr (Or.inr ⟨j, c, off, r, hj, hr, rfl, rfl⟩)⟩

namespace Reordered

variable (h : Reordered p p')
include h

/-- A key of one program has a counterpart in the other. -/
theorem exists_counterpart {name : String} {r : Region} (hr : (r, k) ∈ p.loose name) :
    ∃ k', Counterparts p p' k k' := by
  rcases mem_loose_iff.mp hr with ⟨-, rfl⟩ | ⟨i, c, off, r₀, hi, hr₀, -, rfl⟩
  · exact ⟨0, Or.inl ⟨rfl, rfl⟩⟩
  · obtain ⟨j, -, hj⟩ := h.symm.denoted?_of_getElem? hi
    have hoff : off < c.outline.size := by
      rw [← Outline.length_regions none 0 c.outline]
      exact (List.getElem?_eq_some_iff.mp hr₀).1
    exact ⟨p'.classKey j + off, Or.inr ⟨i, j, off, c, hi, hj, hoff, rfl, rfl⟩⟩

/-- A key of one program has no two counterparts in the other. -/
theorem counterpart_unique {l : Nat} (hk : Counterparts p p' k k') (hl : Counterparts p p' k l) :
    k' = l := by
  rcases hk with ⟨rfl, rfl⟩ | ⟨i, j, off, c, hi, hj, hoff, rfl, rfl⟩
  · exact hl.eq_zero.symm
  · rcases hl with ⟨hzero, -⟩ | ⟨x, y, off', c', hx, hy, hoff', hkey, rfl⟩
    · have := p.classKey_pos (List.getElem?_eq_some_iff.mp hi).1
      omega
    · obtain ⟨rfl, rfl⟩ := classKey_add_inj hi hx hoff hoff' hkey
      obtain rfl := Option.some.inj (hi.symm.trans hx)
      -- The class has one place in the other program, since its name is distinct.
      have hplace : ∀ {z : Nat}, p'.classes[z]? = some c → p'.denoted? c.name = some z :=
        fun hz => (denoted?_eq_some_iff h.distinct').mpr ⟨c, hz, rfl⟩
      rw [Option.some.inj ((hplace hj).symm.trans (hplace hy))]

end Reordered

end Program

end IcFront
