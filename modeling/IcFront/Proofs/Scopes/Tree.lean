import IcFront.Proofs.Chain
import IcFront.Tables.Inheritance
import Mathlib.Data.List.Nodup
import Mathlib.Data.List.Perm.Basic

/-!
# Trees of scopes

Searches among scopes are as long as there are scopes. That is enough for the
ancestors of a scope even if parents go round in circles (`mem_ancestors_iff`),
and without cycles a longer search finds the same (`ancestorsWithin_eq_ancestors`).

An arena is a tree (`Arena.IsTree`) if its children and its parents tell the same
and every way along parents leads to the root. Then a walk from the root visits
every scope once (`IsTree.walk_perm`).
-/

namespace IcFront

namespace Arena

variable {a : Arena} {root : Nat}

/-! ## Ancestors -/

theorem ancestorsWithin_eq_chain (a : Arena) (depth key : Nat) :
    a.ancestorsWithin depth key = chain a.parentOf depth key := by
  induction depth generalizing key with
  | zero => rfl
  | succ depth ih =>
    rw [ancestorsWithin, chain]
    cases a.parentOf key with
    | none => rfl
    | some parent => exact congrArg (parent :: ·) (ih parent)

/-- Whether all parents are scopes of the arena. -/
def Closed (a : Arena) : Prop := ∀ x y, a.parentOf x = some y → y < a.size

theorem lt_size_of_get? {key : Nat} {s : Scope} (h : a.get? key = some s) : key < a.size :=
  (List.getElem?_eq_some_iff.mp h).1

theorem lt_size_of_parentOf {x y : Nat} (h : a.parentOf x = some y) : x < a.size := by
  obtain ⟨s, hs, _⟩ := Option.bind_eq_some_iff.mp h
  exact lt_size_of_get? hs

theorem mem_ancestors_iff (hclosed : a.Closed) {x y : Nat} :
    y ∈ a.ancestors x ↔ Relation.TransGen (Leads a.parentOf) x y := by
  rw [ancestors, ancestorsWithin_eq_chain, mem_chain_iff_transGen hclosed]

/-- A scope lies in another if the way along parents leads there. -/
theorem liesIn_iff (hclosed : a.Closed) {x y : Nat} :
    a.liesIn x y = true ↔ Relation.ReflTransGen (Leads a.parentOf) x y := by
  rw [liesIn, Bool.or_eq_true, beq_iff_eq, List.contains_iff_mem, mem_ancestors_iff hclosed,
    Relation.reflTransGen_iff_eq_or_transGen, eq_comm]

/-- Without cycles a longer search finds the same ancestors. -/
theorem ancestorsWithin_eq_ancestors (hclosed : a.Closed) (hac : Acyclic a.parentOf)
    {depth : Nat} (hdepth : a.size ≤ depth) (key : Nat) :
    a.ancestorsWithin depth key = a.ancestors key := by
  rw [ancestors, ancestorsWithin_eq_chain, ancestorsWithin_eq_chain]
  by_cases hkey : key < a.size
  · exact chain_of_follow_eq_none (follow_eq_none_of_acyclic hclosed hac hkey) hdepth
  · have hnone : a.parentOf key = none := by
      cases h : a.parentOf key with
      | none => rfl
      | some y => exact absurd (lt_size_of_parentOf h) hkey
    have hempty : ∀ n, chain a.parentOf n key = [] := by
      intro n
      cases n with
      | zero => rfl
      | succ n => rw [chain, hnone]
    rw [hempty, hempty]

/-! ## Trees -/

/-- An arena that is one tree of scopes below a root. -/
structure IsTree (a : Arena) (root : Nat) : Prop where
  root_lt : root < a.size
  parentOf_root : a.parentOf root = none
  /-- Every scope but the root is among the children of all scopes exactly once. -/
  children_perm :
    ((List.range a.size).flatMap a.childrenOf).Perm ((List.range a.size).erase root)
  mem_childrenOf : ∀ key child, child ∈ a.childrenOf key ↔ a.parentOf child = some key
  reaches_root : ∀ key, key < a.size → Relation.ReflTransGen (Leads a.parentOf) key root

/-- It takes children that agree with the parents, and parents without cycles. -/
theorem isTree_of_parents (hroot : root < a.size) (hnone : a.parentOf root = none)
    (hparent : ∀ key, key < a.size → key ≠ root → (a.parentOf key).isSome)
    (hclosed : a.Closed) (hac : Acyclic a.parentOf)
    (hmem : ∀ key child, child ∈ a.childrenOf key ↔ a.parentOf child = some key)
    (hnodup : ∀ key, (a.childrenOf key).Nodup) : a.IsTree root where
  root_lt := hroot
  parentOf_root := hnone
  children_perm := by
    have hdistinct : ((List.range a.size).flatMap a.childrenOf).Nodup := by
      rw [List.nodup_flatMap]
      -- A scope in the lists of two others would have two parents.
      refine ⟨fun key _ => hnodup key,
        List.nodup_range.pairwise_of_forall_ne fun key _ key' _ hne => ?_⟩
      intro child hchild hchild'
      rw [hmem] at hchild hchild'
      exact hne (Option.some.inj (hchild.symm.trans hchild'))
    rw [List.perm_ext_iff_of_nodup hdistinct (List.nodup_range.erase root)]
    intro child
    rw [List.mem_flatMap, List.nodup_range.mem_erase_iff, List.mem_range]
    constructor
    · intro hex
      obtain ⟨key, _, hchild⟩ := hex
      rw [hmem] at hchild
      refine ⟨?_, lt_size_of_parentOf hchild⟩
      intro heq
      subst heq
      exact absurd (hnone.symm.trans hchild) (by simp)
    · intro hex
      obtain ⟨hne, hlt⟩ := hex
      obtain ⟨key, hkey⟩ := Option.isSome_iff_exists.mp (hparent child hlt hne)
      exact ⟨key, List.mem_range.mpr (hclosed child key hkey), (hmem key child).mpr hkey⟩
  mem_childrenOf := hmem
  reaches_root := by
    intro key hkey
    obtain ⟨last, hway, hlast⟩ :=
      exists_end_of_follow_eq_none (follow_eq_none_of_acyclic hclosed hac hkey)
    have hlt : last < a.size := by
      rcases Relation.ReflTransGen.cases_tail hway with rfl | ⟨z, _, hz⟩
      · exact hkey
      · exact hclosed z last hz
    -- Only the root has no parent.
    have heq : last = root := by
      by_contra hne
      have hsome := hparent last hlt hne
      rw [hlast] at hsome
      exact absurd hsome (by simp)
    exact heq ▸ hway

namespace IsTree

theorem closed (h : a.IsTree root) : a.Closed := by
  intro x y hxy
  have hmem := (h.mem_childrenOf y x).mpr hxy
  unfold childrenOf at hmem
  split at hmem
  next s hs => exact lt_size_of_get? hs
  next => exact absurd hmem (by simp)

theorem acyclic (h : a.IsTree root) : Acyclic a.parentOf := by
  intro x hx
  obtain ⟨y, hxy, _⟩ := Relation.TransGen.head'_iff.mp hx
  exact not_transGen_self_of_ends (h.reaches_root x (lt_size_of_parentOf hxy)) h.parentOf_root hx

theorem nodup_childrenOf (h : a.IsTree root) (key : Nat) : (a.childrenOf key).Nodup := by
  by_cases hkey : key < a.size
  · have hdistinct := h.children_perm.nodup_iff.mpr (List.nodup_range.erase root)
    exact (List.nodup_flatMap.mp hdistinct).1 key (List.mem_range.mpr hkey)
  · have hnone : a.get? key = none := List.getElem?_eq_none (Nat.le_of_not_lt hkey)
    rw [childrenOf, hnone]
    exact List.nodup_nil

/-- A walk visits the scopes from which the way along parents leads to its start. -/
theorem mem_walkWithin_iff (h : a.IsTree root) {depth key x : Nat} :
    x ∈ a.walkWithin depth key ↔ ∃ m, m ≤ depth ∧ follow a.parentOf m x = some key := by
  induction depth generalizing key with
  | zero =>
    rw [walkWithin, List.mem_singleton]
    constructor
    · intro heq
      subst heq
      exact ⟨0, Nat.le_refl 0, rfl⟩
    · intro hex
      obtain ⟨m, hm, hx⟩ := hex
      obtain rfl := Nat.le_zero.mp hm
      exact Option.some.inj hx
  | succ depth ih =>
    rw [walkWithin, List.mem_cons, List.mem_flatMap]
    constructor
    · intro hor
      rcases hor with rfl | ⟨child, hchild, hx⟩
      · exact ⟨0, Nat.zero_le _, rfl⟩
      · obtain ⟨m, hm, hfollow⟩ := ih.mp hx
        exact ⟨m + 1, by omega, follow_succ_eq_some.mpr
          ⟨child, hfollow, (h.mem_childrenOf key child).mp hchild⟩⟩
    · intro hex
      obtain ⟨m, hm, hfollow⟩ := hex
      cases m with
      | zero => exact Or.inl (Option.some.inj hfollow)
      | succ m =>
        obtain ⟨child, hx, hchild⟩ := follow_succ_eq_some.mp hfollow
        exact Or.inr ⟨child, (h.mem_childrenOf key child).mpr hchild,
          ih.mpr ⟨m, by omega, hx⟩⟩

theorem reaches_of_mem_walkWithin (h : a.IsTree root) {depth key x : Nat}
    (hx : x ∈ a.walkWithin depth key) : Relation.ReflTransGen (Leads a.parentOf) x key := by
  obtain ⟨m, _, hm⟩ := h.mem_walkWithin_iff.mp hx
  exact reflTransGen_iff_follow.mpr ⟨m, hm⟩

/-- No scope lies below two children of a scope. -/
theorem eq_of_reaches_siblings (h : a.IsTree root) {key child child' x : Nat}
    (hchild : a.parentOf child = some key) (hchild' : a.parentOf child' = some key)
    (hx : Relation.ReflTransGen (Leads a.parentOf) x child)
    (hx' : Relation.ReflTransGen (Leads a.parentOf) x child') : child = child' := by
  -- One of the two lies below the other, and its parent then above the other.
  have habove : ∀ y z, a.parentOf y = some key → a.parentOf z = some key →
      Relation.ReflTransGen (Leads a.parentOf) y z → y = z := by
    intro y z hy hz hyz
    rcases Relation.ReflTransGen.cases_head hyz with rfl | ⟨w, hyw, hwz⟩
    · rfl
    · obtain rfl := Option.some.inj (hy.symm.trans hyw)
      exact absurd (Relation.TransGen.tail' hwz hz) (h.acyclic key)
  have hunique : Relator.RightUnique (Leads a.parentOf) := fun _ _ _ hy hz =>
    Option.some.inj (hy.symm.trans hz)
  rcases Relation.ReflTransGen.total_of_right_unique hunique hx hx' with hup | hdown
  · exact habove child child' hchild hchild' hup
  · exact (habove child' child hchild' hchild hdown).symm

theorem nodup_walkWithin (h : a.IsTree root) (depth key : Nat) :
    (a.walkWithin depth key).Nodup := by
  induction depth generalizing key with
  | zero => exact List.nodup_singleton key
  | succ depth ih =>
    rw [walkWithin, List.nodup_cons, List.mem_flatMap, List.nodup_flatMap]
    refine ⟨?_, fun child _ => ih child,
      (h.nodup_childrenOf key).pairwise_of_forall_ne fun child hchild child' hchild' hne => ?_⟩
    · -- The start of a walk does not lie below one of its children.
      intro hex
      obtain ⟨child, hchild, hkey⟩ := hex
      rw [h.mem_childrenOf] at hchild
      exact h.acyclic key (Relation.TransGen.tail' (h.reaches_of_mem_walkWithin hkey) hchild)
    · intro x hx hx'
      rw [h.mem_childrenOf] at hchild hchild'
      exact hne (h.eq_of_reaches_siblings hchild hchild' (h.reaches_of_mem_walkWithin hx)
        (h.reaches_of_mem_walkWithin hx'))

/-- A walk from the root visits every scope exactly once. -/
theorem walk_perm (h : a.IsTree root) : (a.walk root).Perm (List.range a.size) := by
  rw [walk, List.perm_ext_iff_of_nodup (h.nodup_walkWithin a.size root) List.nodup_range]
  intro x
  rw [h.mem_walkWithin_iff, List.mem_range]
  constructor
  · intro hex
    obtain ⟨m, _, hm⟩ := hex
    cases m with
    | zero => exact Option.some.inj hm ▸ h.root_lt
    | succ m =>
      obtain ⟨z, hz, _⟩ := Option.bind_eq_some_iff.mp hm
      exact lt_size_of_parentOf hz
  · intro hx
    obtain ⟨m, hm⟩ := reflTransGen_iff_follow.mp (h.reaches_root x hx)
    -- The way to the root is over before as many steps as there are scopes.
    have hend := follow_eq_none_of_acyclic h.closed h.acyclic hx
    refine ⟨m, ?_, hm⟩
    by_contra hlong
    obtain ⟨z, hz, _⟩ := follow_of_le hm (Nat.le_of_not_le hlong)
    exact absurd (hend.symm.trans hz) (by simp)

end IsTree

end Arena

end IcFront
