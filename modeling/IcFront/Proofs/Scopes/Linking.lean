import IcFront.Proofs.Scopes.Edit
import Mathlib.Data.Finset.Card
import Mathlib.Order.Monotone.Basic

/-!
# How deep linking goes

`linkBelow` goes at most as many levels down as there are scopes. If the ways along
children from a scope are all shorter than some bound (`Shallow`), then they are shorter
than that (`ChildrenIn.shallow_size`), so that `linkBelow` links all scopes below it and a
deeper linking does nothing else (`ChildrenIn.linkBelow_eq`). If they are not, then some
way along children goes round in circles, and there is no end to linking.
-/

namespace IcFront

/-- Whether every way along children from a key visits less than `depth + 1` keys. -/
def Shallow (children : Nat → List Nat) : (depth : Nat) → (key : Nat) → Prop
  | 0, _ => False
  | depth + 1, key => ∀ child ∈ children key, Shallow children depth child

theorem Shallow.succ {children : Nat → List Nat} {depth key : Nat} (h : Shallow children depth key) :
    Shallow children (depth + 1) key := by
  induction depth generalizing key with
  | zero => exact h.elim
  | succ depth ih => exact fun child hchild => ih (h child hchild)

theorem Shallow.mono {children : Nat → List Nat} {depth depth' key : Nat}
    (h : Shallow children depth key) (hle : depth ≤ depth') : Shallow children depth' key := by
  induction depth', hle using Nat.le_induction with
  | base => exact h
  | succ depth' _ ih => exact ih.succ

namespace Arena

variable {a : Arena}

/-- Whether all children are scopes of the arena. -/
def ChildrenIn (a : Arena) : Prop := ∀ key, ∀ child ∈ a.childrenOf key, child < a.size

/-! ## Children stay -/

theorem childrenOf_modify {key : Nat} {f : Scope → Scope} (hf : ∀ s, (f s).children = s.children) :
    (a.modify key f).childrenOf = a.childrenOf := by
  funext k
  rw [childrenOf, get?_modify, childrenOf]
  by_cases heq : key = k
  · rw [if_pos heq]
    cases a.get? k with
    | none => rfl
    | some s => exact hf s
  · rw [if_neg heq]

theorem childrenOf_setParent (a : Arena) (child parent : Nat) :
    (a.setParent child parent).childrenOf = a.childrenOf := childrenOf_modify fun _ => rfl

@[simp] theorem size_setParent (a : Arena) (child parent : Nat) :
    (a.setParent child parent).size = a.size := size_modify a child _

/-- Linking changes neither the children of scopes nor how many scopes there are. -/
theorem linkWithin_keeps (depth : Nat) (a : Arena) (root : Nat) :
    (linkWithin depth a root).childrenOf = a.childrenOf ∧
      (linkWithin depth a root).size = a.size := by
  induction depth generalizing a root with
  | zero => exact ⟨rfl, rfl⟩
  | succ depth ih =>
    rw [linkWithin]
    generalize a.childrenOf root = children
    induction children generalizing a with
    | nil => exact ⟨rfl, rfl⟩
    | cons child children ihs =>
      rw [List.foldl_cons]
      obtain ⟨hchildren, hsize⟩ := ih (a.setParent child root) child
      rw [childrenOf_setParent] at hchildren
      rw [size_setParent] at hsize
      obtain ⟨hchildren', hsize'⟩ := ihs (linkWithin depth (a.setParent child root) child)
      exact ⟨hchildren'.trans hchildren, hsize'.trans hsize⟩

namespace ChildrenIn

theorem congr {b : Arena} (h : a.ChildrenIn) (hchildren : b.childrenOf = a.childrenOf)
    (hsize : a.size ≤ b.size) : b.ChildrenIn := by
  intro key child hchild
  rw [hchildren] at hchild
  exact Nat.lt_of_lt_of_le (h key child hchild) hsize

theorem modify (h : a.ChildrenIn) {key : Nat} {f : Scope → Scope}
    (hf : ∀ s, (f s).children = s.children) : (a.modify key f).ChildrenIn :=
  h.congr (childrenOf_modify hf) (size_modify a key f).ge

theorem linkWithin (h : a.ChildrenIn) (depth root : Nat) :
    (Arena.linkWithin depth a root).ChildrenIn :=
  h.congr (linkWithin_keeps depth a root).1 (linkWithin_keeps depth a root).2.ge

theorem newScope (h : a.ChildrenIn) (kind : ScopeKind) (name : String) :
    (a.newScope kind name).1.ChildrenIn := by
  have hextend : (a.newScope kind name).1 = a.extend [{ kind, name }] := rfl
  refine h.congr ?_ ?_
  · funext key
    rw [hextend, childrenOf, get?_extend, childrenOf]
    by_cases hkey : key < a.size
    · rw [if_pos hkey]
    · have hnone : a.get? key = none := List.getElem?_eq_none (Nat.le_of_not_lt hkey)
      rw [if_neg hkey, hnone]
      cases key - a.size <;> rfl
  · rw [hextend, size_extend]
    exact Nat.le_add_right _ _

theorem addChild (h : a.ChildrenIn) {child : Nat} (hchild : child < a.size) (key : Nat) :
    (a.addChild key child).ChildrenIn := by
  intro k c hc
  rw [addChild_eq] at hc ⊢
  rw [size_modify]
  rw [childrenOf, get?_modify] at hc
  have hold := h k c
  rw [childrenOf] at hold
  split at hc
  next s hs =>
    split at hs
    next =>
      obtain ⟨s', hs', rfl⟩ := Option.map_eq_some_iff.mp hs
      rw [hs'] at hold
      rcases List.mem_append.mp hc with hc | hc
      · exact hold hc
      · rwa [List.mem_singleton.mp hc]
    next =>
      rw [hs] at hold
      exact hold hc
  next => cases hc

/-! ## As many levels as there are scopes -/

/-- Ways along children that are all bounded visit no key twice, and so are shorter than
there are scopes. -/
theorem shallow_size (h : a.ChildrenIn) {depth key : Nat} (hkey : key < a.size)
    (hshallow : Shallow a.childrenOf depth key) : Shallow a.childrenOf a.size key := by
  classical
  let within (depth : Nat) : Finset Nat :=
    (Finset.range a.size).filter (Shallow a.childrenOf depth)
  have hmem : ∀ {depth key}, key ∈ within depth ↔ key < a.size ∧ Shallow a.childrenOf depth key := by
    intro depth key
    rw [Finset.mem_filter, Finset.mem_range]
  have hsub : ∀ {depth depth'}, depth ≤ depth' → within depth ⊆ within depth' := by
    intro depth depth' hle key hkey
    exact hmem.mpr ⟨(hmem.mp hkey).1, (hmem.mp hkey).2.mono hle⟩
  -- A level that brings no further scopes is the last one that might.
  have hstable : ∀ depth, (within depth).card = (within (depth + 1)).card →
      (within (depth + 1)).card = (within (depth + 2)).card := by
    intro depth hcard
    have heq := Finset.eq_of_subset_of_card_le (hsub (Nat.le_succ depth)) hcard.ge
    refine congrArg Finset.card (Finset.Subset.antisymm (hsub (Nat.le_succ _)) ?_)
    intro key hkey
    refine hmem.mpr ⟨(hmem.mp hkey).1, fun child hchild => ?_⟩
    have hchild' := hmem.mpr ⟨h key child hchild, (hmem.mp hkey).2 child hchild⟩
    rw [← heq] at hchild'
    exact (hmem.mp hchild').2
  have hcard : (within (max depth a.size)).card = (within a.size).card := by
    refine Nat.stabilises_of_monotone (fun _ _ hle => Finset.card_le_card (hsub hle)) (fun depth => ?_)
      hstable (Nat.le_max_right depth a.size)
    have hle := Finset.card_filter_le (Finset.range a.size) (Shallow a.childrenOf depth)
    rwa [Finset.card_range] at hle
  have heq := Finset.eq_of_subset_of_card_le (hsub (Nat.le_max_right depth a.size)) hcard.le
  refine (hmem.mp ?_).2
  rw [heq]
  exact hmem.mpr ⟨hkey, hshallow.mono (Nat.le_max_left depth a.size)⟩

end ChildrenIn

/-- Going deeper than there are levels links the same scopes. -/
theorem linkWithin_of_shallow {depth depth' root : Nat} (h : Shallow a.childrenOf depth root)
    (hle : depth ≤ depth') : linkWithin depth' a root = linkWithin depth a root := by
  induction depth generalizing a root depth' with
  | zero => exact h.elim
  | succ depth ih =>
    obtain ⟨depth', rfl⟩ : ∃ d, depth' = d + 1 := ⟨depth' - 1, by omega⟩
    rw [linkWithin, linkWithin]
    -- The arena changes from child to child, but not the children of its scopes.
    have hall : ∀ (children : List Nat) (b : Arena), b.childrenOf = a.childrenOf →
        (∀ child ∈ children, Shallow a.childrenOf depth child) →
        children.foldl (fun b child => linkWithin depth' (b.setParent child root) child) b =
          children.foldl (fun b child => linkWithin depth (b.setParent child root) child) b := by
      intro children
      induction children with
      | nil => exact fun _ _ _ => rfl
      | cons child children ihs =>
        intro b hb hchildren
        have hset : (b.setParent child root).childrenOf = a.childrenOf :=
          (childrenOf_setParent b child root).trans hb
        have hone : linkWithin depth' (b.setParent child root) child =
            linkWithin depth (b.setParent child root) child := by
          refine ih ?_ (Nat.le_of_succ_le_succ hle)
          rw [hset]
          exact hchildren child List.mem_cons_self
        rw [List.foldl_cons, List.foldl_cons, hone]
        exact ihs _ ((linkWithin_keeps depth _ child).1.trans hset)
          fun c hc => hchildren c (List.mem_cons_of_mem child hc)
    exact hall (a.childrenOf root) a rfl h

/-- What links all scopes below a scope at any depth is what `linkBelow` does. -/
theorem ChildrenIn.linkBelow_eq (h : a.ChildrenIn) {depth root : Nat} (hroot : root < a.size)
    (hshallow : Shallow a.childrenOf depth root) :
    a.linkBelow root = Arena.linkWithin depth a root := by
  have hsize := h.shallow_size hroot hshallow
  rw [Arena.linkBelow, ← linkWithin_of_shallow hsize (Nat.le_max_left a.size depth),
    ← linkWithin_of_shallow hshallow (Nat.le_max_right a.size depth)]

end Arena

end IcFront
