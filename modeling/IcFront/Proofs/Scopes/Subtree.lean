import IcFront.Proofs.Scopes.Linking
import IcFront.Proofs.Scopes.Preorder

/-!
# Linking a subtree

`Links` is linking as it goes on: one child after another is pointed at the scope it is a
child of, and then all that lies below it is linked, before the next child's turn. Nothing
in it bounds how many calls lie in each other, so that `LinksBelow` holds of what a call
comes to if it ends at all.

Whatever a call comes to, it has changed parents only, and each of them to a scope that has
the other as a child (`Links.relinks`); and it has been to every scope below the one it
started from (`Links.linked`). Both are inductions along the calls, for which it does not
matter that a scope may be come to twice.

If the scopes below a root form a tree (`TreeBelow`), no scope lies below itself, so that
the way down loses a scope with each step (`TreeBelow.shallow`): the call ends, it comes to
`linkBelow`, and since each scope has one holder only, that is its parent afterwards
(`linkBelow_sets_subtree`).
-/

namespace IcFront

/-- How the children of a scope that are still to be linked get linked, in whatever scopes
are kept in: what it is before, the scope and these children, and what it is after. -/
inductive Links {σ : Type} (childrenOf : σ → Nat → Option (List Nat))
    (setParent : σ → Nat → Nat → σ) : σ → Nat → List Nat → σ → Prop
  | done (s : σ) (root : Nat) : Links childrenOf setParent s root [] s
  | next {s s' s'' : σ} {root child : Nat} {inner children : List Nat}
    (hchild : childrenOf (setParent s child root) child = some inner)
    (hinner : Links childrenOf setParent (setParent s child root) child inner s')
    (hrest : Links childrenOf setParent s' root children s'') :
    Links childrenOf setParent s root (child :: children) s''

/-- A call comes to one thing only. -/
theorem Links.unique {σ : Type} {childrenOf : σ → Nat → Option (List Nat)}
    {setParent : σ → Nat → Nat → σ} {s s' s'' : σ} {root : Nat} {children : List Nat}
    (h : Links childrenOf setParent s root children s')
    (h' : Links childrenOf setParent s root children s'') : s' = s'' := by
  induction h generalizing s'' with
  | done =>
    cases h'
    rfl
  | next hchild _ _ ihinner ihrest =>
    cases h' with
    | next hchild' hinner' hrest' =>
      obtain rfl := Option.some.inj (hchild.symm.trans hchild')
      obtain rfl := ihinner hinner'
      exact ihrest hrest'

namespace Arena

variable {a b c : Arena} {root top key x depth : Nat} {children : List Nat}

/-- The children of a scope, if there is such a scope. -/
def inner? (a : Arena) (key : Nat) : Option (List Nat) := (a.get? key).map (·.children)

/-- What linking all scopes below a scope comes to. -/
def LinksBelow (a : Arena) (root : Nat) (b : Arena) : Prop :=
  Links inner? setParent a root (a.childrenOf root) b

/-- Whether a scope is among the children of another. -/
def HasChild (a : Arena) (key child : Nat) : Prop := child ∈ a.childrenOf key

/-- Whether a scope is reached from another along children, in one step or more. -/
def Below (a : Arena) (root x : Nat) : Prop := Relation.TransGen a.HasChild root x

/-- Whether a scope is another one or below it. -/
def Within (a : Arena) (root x : Nat) : Prop := Relation.ReflTransGen a.HasChild root x

/-- Whether a scope is among the children of one within a root. -/
def Holds (a : Arena) (root key x : Nat) : Prop := a.Within root key ∧ a.HasChild key x

/-- Whether the scopes below a root form a tree: no two of them have a child in common, and
none has the root as a child. -/
structure TreeBelow (a : Arena) (root : Nat) : Prop where
  root_lt : root < a.size
  child_lt : ∀ key child, a.Holds root key child → child < a.size
  holder_unique : ∀ key key' child, a.Holds root key child → a.Holds root key' child → key = key'
  root_not_held : ∀ key, ¬ a.Holds root key root

theorem inner?_eq (hkey : key < a.size) : a.inner? key = some (a.childrenOf key) := by
  obtain ⟨s, hs⟩ := get?_eq_some hkey
  rw [inner?, childrenOf, hs]
  rfl

theorem childrenOf_of_inner? (h : a.inner? key = some children) : a.childrenOf key = children := by
  obtain ⟨s, hs, rfl⟩ := Option.map_eq_some_iff.mp h
  rw [childrenOf, hs]

theorem lt_size_of_inner? (h : a.inner? key = some children) : key < a.size := by
  obtain ⟨s, hs, -⟩ := Option.map_eq_some_iff.mp h
  exact lt_size_of_get? hs

theorem hasChild_congr (h : b.childrenOf = a.childrenOf) : b.HasChild = a.HasChild := by
  funext key child
  rw [HasChild, h]
  rfl

theorem within_congr (h : b.childrenOf = a.childrenOf) : b.Within = a.Within := by
  funext root x
  rw [Within, hasChild_congr h]
  rfl

theorem holds_congr (h : b.childrenOf = a.childrenOf) : b.Holds = a.Holds := by
  funext root key x
  rw [Holds, within_congr h, hasChild_congr h]
  rfl

/-- What lies below a scope is a child of one within it. -/
theorem below_iff : a.Below root x ↔ ∃ key, a.Holds root key x := Relation.TransGen.tail'_iff

/-! ## Only parents change -/

/-- Whether arenas differ in parents only, and there have a scope that stands in a relation to
the one it is the parent of. -/
def Relinks (R : Nat → Nat → Prop) (a b : Arena) : Prop :=
  ∀ x, b.get? x = a.get? x ∨
    ∃ key, R key x ∧ b.get? x = (a.get? x).map fun s => { s with parent := some key }

namespace Relinks

variable {R : Nat → Nat → Prop}

theorem refl (R : Nat → Nat → Prop) (a : Arena) : Relinks R a a := fun _ => .inl rfl

theorem trans (h : Relinks R a b) (h' : Relinks R b c) : Relinks R a c := by
  intro x
  rcases h' x with hsame' | ⟨key, hkey, hset⟩
  · rw [hsame']
    exact h x
  · right
    refine ⟨key, hkey, ?_⟩
    -- The parent set last is the one that stays.
    rcases h x with hsame | ⟨_, _, hset'⟩
    · rw [hset, hsame]
    · rw [hset, hset', Option.map_map]
      rfl

theorem setParent (h : R key x) : Relinks R a (a.setParent x key) := by
  intro y
  rw [setParent_eq, get?_modify]
  by_cases hy : x = y
  · subst hy
    rw [if_pos rfl]
    exact .inr ⟨key, h, rfl⟩
  · rw [if_neg hy]
    exact .inl rfl

/-- A parent that stands in the relation is replaced by such a parent only. -/
theorem parentOf (h : Relinks R a b) (hx : ∃ key, R key x ∧ a.parentOf x = some key) :
    ∃ key, R key x ∧ b.parentOf x = some key := by
  obtain ⟨key, hkey, hparent⟩ := hx
  rcases h x with hsame | ⟨key', hkey', hset⟩
  · refine ⟨key, hkey, ?_⟩
    rw [Arena.parentOf, hsame]
    exact hparent
  · refine ⟨key', hkey', ?_⟩
    obtain ⟨s, hs, -⟩ := Option.bind_eq_some_iff.mp hparent
    rw [Arena.parentOf, hset, hs]
    rfl

end Relinks

end Arena

namespace Links

open Arena

variable {a s s' : Arena} {root top x : Nat} {children : List Nat}

/-- Linking changes neither the children of scopes nor how many scopes there are. -/
theorem keeps (h : Links inner? setParent s top children s') :
    s'.childrenOf = s.childrenOf ∧ s'.size = s.size := by
  induction h with
  | done => exact ⟨rfl, rfl⟩
  | next _ _ _ ihinner ihrest =>
    rw [childrenOf_setParent, size_setParent] at ihinner
    exact ⟨ihrest.1.trans ihinner.1, ihrest.2.trans ihinner.2⟩

/-- Linking below a scope that is within a root gives scopes within the root as parents. -/
theorem relinks (h : Links inner? setParent s top children s')
    (hs : s.childrenOf = a.childrenOf) (htop : a.Within root top)
    (hin : ∀ child ∈ children, a.HasChild top child) : Relinks (a.Holds root) s s' := by
  induction h with
  | done => exact .refl _ _
  | @next s s' s'' top child inner children hchild hinner hrest ihinner ihrest =>
    have hheld : a.HasChild top child := hin child List.mem_cons_self
    have hu : (s.setParent child top).childrenOf = a.childrenOf :=
      (childrenOf_setParent s child top).trans hs
    have hkept : a.childrenOf child = inner := by rw [← hu, childrenOf_of_inner? hchild]
    have hset : Relinks (a.Holds root) s (s.setParent child top) := .setParent ⟨htop, hheld⟩
    have hbelow : Relinks (a.Holds root) (s.setParent child top) s' := by
      refine ihinner hu (htop.tail hheld) fun c hc => ?_
      show c ∈ a.childrenOf child
      rwa [hkept]
    have hothers := ihrest (hinner.keeps.1.trans hu) htop fun c hc =>
      hin c (List.mem_cons_of_mem child hc)
    exact (hset.trans hbelow).trans hothers

/-- Linking comes to every child that is to be linked and to all that lies below it. -/
theorem linked (h : Links inner? setParent s top children s')
    (hs : s.childrenOf = a.childrenOf) (htop : a.Within root top)
    (hin : ∀ child ∈ children, a.HasChild top child)
    (hx : ∃ child ∈ children, a.Within child x) :
    ∃ key, a.Holds root key x ∧ s'.parentOf x = some key := by
  induction h with
  | done =>
    obtain ⟨child, hchild, -⟩ := hx
    cases hchild
  | @next s s' s'' top child inner children hchild hinner hrest ihinner ihrest =>
    have hheld : a.HasChild top child := hin child List.mem_cons_self
    have hu : (s.setParent child top).childrenOf = a.childrenOf :=
      (childrenOf_setParent s child top).trans hs
    have hkept : a.childrenOf child = inner := by rw [← hu, childrenOf_of_inner? hchild]
    have hrestIn : ∀ c ∈ children, a.HasChild top c := fun c hc =>
      hin c (List.mem_cons_of_mem child hc)
    have hinnerIn : ∀ c ∈ inner, a.HasChild child c := by
      intro c hc
      show c ∈ a.childrenOf child
      rwa [hkept]
    have hs' : s'.childrenOf = a.childrenOf := hinner.keeps.1.trans hu
    have hafter := hrest.relinks hs' htop hrestIn
    obtain ⟨c, hc, hcx⟩ := hx
    rcases List.mem_cons.mp hc with rfl | hc
    · -- What is linked by now is not undone by the children that come after.
      refine hafter.parentOf ?_
      rcases Relation.ReflTransGen.cases_head hcx with rfl | ⟨d, hd, hdx⟩
      · refine (hinner.relinks hu (htop.tail hheld) hinnerIn).parentOf ⟨top, ⟨htop, hheld⟩, ?_⟩
        have hlt := lt_size_of_inner? hchild
        rw [size_setParent] at hlt
        obtain ⟨scope, hscope⟩ := get?_eq_some hlt
        rw [parentOf, setParent_eq, get?_modify_self, hscope]
        rfl
      · refine ihinner hu (htop.tail hheld) hinnerIn ⟨d, ?_, hdx⟩
        rw [← hkept]
        exact hd
    · exact ihrest hs' htop hrestIn ⟨c, hc, hcx⟩

end Links

namespace Arena

variable {a b : Arena} {root key x depth : Nat}

/-! ## Calls that end -/

/-- Linking as many levels as there are is what the calls come to. -/
theorem links_linkWithin (h : Shallow a.childrenOf depth root)
    (hin : ∀ key child, a.Holds root key child → child < a.size) :
    a.LinksBelow root (linkWithin depth a root) := by
  induction depth generalizing a root with
  | zero => exact h.elim
  | succ depth ih =>
    rw [linkWithin, LinksBelow]
    -- The children left to link meet an arena whose parents have changed by then, so that the
    -- second induction is over any arena that has the children of `a`.
    have hall : ∀ (children : List Nat) (s : Arena), s.childrenOf = a.childrenOf →
        s.size = a.size → (∀ child ∈ children, a.HasChild root child) →
        Links inner? setParent s root children
          (children.foldl (fun s child => linkWithin depth (s.setParent child root) child) s) := by
      intro children
      induction children with
      | nil => exact fun s _ _ _ => .done s root
      | cons child children ihs =>
        intro s hs hsize hchildren
        have hheld : a.HasChild root child := hchildren child List.mem_cons_self
        have hu : (s.setParent child root).childrenOf = a.childrenOf :=
          (childrenOf_setParent s child root).trans hs
        have husize : (s.setParent child root).size = a.size :=
          (size_setParent s child root).trans hsize
        have hlt : child < (s.setParent child root).size := by
          rw [husize]
          exact hin root child ⟨.refl, hheld⟩
        obtain ⟨hkept, hkeptsize⟩ := linkWithin_keeps depth (s.setParent child root) child
        have hinner : (s.setParent child root).LinksBelow child
            (linkWithin depth (s.setParent child root) child) := by
          refine ih ?_ fun k c hc => ?_
          · rw [hu]
            exact h child hheld
          · rw [husize]
            rw [holds_congr hu] at hc
            exact hin k c ⟨.head hheld hc.1, hc.2⟩
        rw [List.foldl_cons]
        exact .next (inner?_eq hlt) hinner (ihs _ (hkept.trans hu) (hkeptsize.trans husize)
          fun c hc => hchildren c (List.mem_cons_of_mem child hc))
    exact hall (a.childrenOf root) a rfl rfl fun child hchild => hchild

/-- A call that ends goes along no endless way. -/
theorem exists_shallow_of_links {s s' : Arena} {top : Nat} {children : List Nat}
    (h : Links inner? setParent s top children s') :
    ∃ depth, ∀ child ∈ children, Shallow s.childrenOf depth child := by
  induction h with
  | done => exact ⟨0, fun _ hchild => absurd hchild List.not_mem_nil⟩
  | @next s s' s'' top child inner children hchild hinner hrest ihinner ihrest =>
    obtain ⟨depth, hbelow⟩ := ihinner
    obtain ⟨depth', hothers⟩ := ihrest
    have hu := childrenOf_setParent s child top
    have hkept : s.childrenOf child = inner := by rw [← hu, childrenOf_of_inner? hchild]
    -- Both bounds are for later arenas; linking has left the children as they were in `s`.
    rw [hinner.keeps.1, hu] at hothers
    rw [hu] at hbelow
    refine ⟨max (depth + 1) depth', fun c hc => ?_⟩
    rcases List.mem_cons.mp hc with rfl | hc
    · have hone : Shallow s.childrenOf (depth + 1) c := by
        intro d hd
        rw [hkept] at hd
        exact hbelow d hd
      exact hone.mono (Nat.le_max_left _ _)
    · exact (hothers c hc).mono (Nat.le_max_right _ _)

/-- A call that ends comes to `linkBelow`. -/
theorem LinksBelow.eq_linkBelow (h : a.LinksBelow root b) (hin : a.ChildrenIn)
    (hroot : root < a.size) : b = a.linkBelow root := by
  obtain ⟨depth, hdepth⟩ := exists_shallow_of_links h
  have hshallow : Shallow a.childrenOf (depth + 1) root := hdepth
  exact h.unique (links_linkWithin (hin.shallow_size hroot hshallow) fun key child hheld =>
    hin key child hheld.2)

namespace TreeBelow

variable (h : a.TreeBelow root)
include h

/-- No scope within the root lies below itself. -/
theorem not_below_self (hx : a.Within root x) : ¬ a.Below x x := by
  induction hx with
  | refl =>
    intro hcycle
    obtain ⟨key, hkey⟩ := below_iff.mp hcycle
    exact h.root_not_held key hkey
  | @tail y x hy hyx ih =>
    intro hcycle
    obtain ⟨z, hxz, hzx⟩ := below_iff.mp hcycle
    -- The way back to `x` comes from where `x` was first come to.
    obtain rfl : y = z := h.holder_unique y z x ⟨hy, hyx⟩ ⟨(hy.tail hyx).trans hxz, hzx⟩
    exact ih (Relation.TransGen.head' hyx hxz)

/-- The tree is no deeper than there are scopes: from each scope to a child of it there is
less below. -/
theorem shallow : Shallow a.childrenOf a.size root := by
  classical
  let inside (key : Nat) : Finset Nat := (Finset.range a.size).filter (a.Below key)
  have hmem : ∀ {key x}, x ∈ inside key ↔ x < a.size ∧ a.Below key x := by
    intro key x
    rw [Finset.mem_filter, Finset.mem_range]
  -- By induction on how many scopes lie below: the child is one of those below its parent,
  -- and does not lie below itself.
  have hdeep : ∀ n key, a.Within root key → (inside key).card < n →
      Shallow a.childrenOf n key := by
    intro n
    induction n with
    | zero => exact fun key _ hcard => absurd hcard (Nat.not_lt_zero _)
    | succ n ih =>
      intro key hkey hcard child hchild
      have hstep : a.HasChild key child := hchild
      have hless : inside child ⊂ inside key := by
        rw [Finset.ssubset_iff_of_subset]
        · exact ⟨child, hmem.mpr ⟨h.child_lt key child ⟨hkey, hstep⟩, .single hstep⟩,
            fun hin => h.not_below_self (hkey.tail hstep) (hmem.mp hin).2⟩
        · intro x hx
          exact hmem.mpr ⟨(hmem.mp hx).1, (hmem.mp hx).2.head hstep⟩
      have hcard' := Finset.card_lt_card hless
      exact ih child (hkey.tail hstep) (by omega)
  have hroot : inside root ⊂ Finset.range a.size := by
    rw [Finset.ssubset_iff_of_subset (Finset.filter_subset _ _)]
    exact ⟨root, Finset.mem_range.mpr h.root_lt,
      fun hin => h.not_below_self .refl (hmem.mp hin).2⟩
  have hcard := Finset.card_lt_card hroot
  rw [Finset.card_range] at hcard
  exact hdeep a.size root .refl hcard

theorem congr (hchildren : b.childrenOf = a.childrenOf) (hsize : b.size = a.size) :
    b.TreeBelow root where
  root_lt := by
    rw [hsize]
    exact h.root_lt
  child_lt := by
    rw [holds_congr hchildren, hsize]
    exact h.child_lt
  holder_unique := by
    rw [holds_congr hchildren]
    exact h.holder_unique
  root_not_held := by
    rw [holds_congr hchildren]
    exact h.root_not_held

theorem linksBelow : a.LinksBelow root (a.linkBelow root) :=
  links_linkWithin h.shallow h.child_lt

/-- After linking, the parent of each scope below the root is the one that holds it. -/
theorem parentOf_linkBelow (hx : a.Holds root key x) :
    (a.linkBelow root).parentOf x = some key := by
  obtain ⟨child, hchild, hrest⟩ := Relation.TransGen.head'_iff.mp (below_iff.mpr ⟨key, hx⟩)
  obtain ⟨key', hkey', hparent⟩ := h.linksBelow.linked rfl .refl (fun _ hc => hc)
    ⟨child, hchild, hrest⟩
  rw [hparent, h.holder_unique key' key x hkey' hx]

/-- Linking leaves alone what does not lie below the root. -/
theorem get?_linkBelow (hx : ¬ a.Below root x) : (a.linkBelow root).get? x = a.get? x := by
  rcases h.linksBelow.relinks rfl .refl (fun _ hc => hc) x with hsame | ⟨key, hkey, -⟩
  · exact hsame
  · exact absurd (below_iff.mpr ⟨key, hkey⟩) hx

/-- Linking leaves alone everything but parents. -/
theorem get?_linkBelow_eq (x : Nat) : (a.linkBelow root).get? x =
    (a.get? x).map fun s => { s with parent := (a.linkBelow root).parentOf x } := by
  have hsame : ∀ o : Option Scope, o = (a.get? x) ∨
      (∃ key, o = (a.get? x).map fun s => { s with parent := some key }) →
      o = (a.get? x).map fun s => { s with parent := o.bind (·.parent) } := by
    intro o ho
    cases hs : a.get? x with
    | none => rcases ho with rfl | ⟨key, rfl⟩ <;> rw [hs] <;> rfl
    | some s => rcases ho with rfl | ⟨key, rfl⟩ <;> rw [hs] <;> rfl
  rcases h.linksBelow.relinks rfl .refl (fun _ hc => hc) x with hold | ⟨key, -, hset⟩
  · exact hsame _ (.inl hold)
  · exact hsame _ (.inr ⟨key, hset⟩)

end TreeBelow

/-! ## Walks -/

theorem walkWithin_congr (h : b.childrenOf = a.childrenOf) (depth root : Nat) :
    b.walkWithin depth root = a.walkWithin depth root := by
  induction depth generalizing root with
  | zero => rfl
  | succ depth ih =>
    rw [walkWithin, walkWithin, h]
    exact congrArg (root :: ·) (List.flatMap_congr fun child _ => ih child)

/-- A walk that goes deep enough visits what is within its root. -/
theorem mem_walkWithin_iff (h : Shallow a.childrenOf depth root) :
    x ∈ a.walkWithin depth root ↔ a.Within root x := by
  induction depth generalizing root with
  | zero => exact h.elim
  | succ depth ih =>
    rw [walkWithin, List.mem_cons, List.mem_flatMap, Within, Relation.ReflTransGen.cases_head_iff]
    refine or_congr eq_comm (exists_congr fun child => and_congr_right fun hchild => ?_)
    exact ih (h child hchild)

/-! ## The subtree -/

/-- Linking below a root under which scopes form a tree ends, and comes to `linkBelow`. Then
every scope below the root has as its parent the one within the root that it is a child of.
All other scopes, the root among them, are as they were, and of no scope anything but the
parent has changed. The same scopes are visited by a walk from the root, and linking again
changes nothing. -/
theorem linkBelow_sets_subtree (a : Arena) (root : Nat) (h : a.TreeBelow root) :
    let b := a.linkBelow root
    (∀ c, a.LinksBelow root c ↔ c = b) ∧
      (∀ key child, a.Holds root key child → b.parentOf child = some key) ∧
      ¬ a.Below root root ∧ (∀ x, ¬ a.Below root x → b.get? x = a.get? x) ∧
      (∀ x, b.get? x = (a.get? x).map fun s => { s with parent := b.parentOf x }) ∧
      b.walk root = a.walk root ∧ (∀ x, x ∈ a.walk root ↔ a.Within root x) ∧
      b.linkBelow root = b := by
  intro b
  obtain ⟨hchildren, hsize⟩ := h.linksBelow.keeps
  have hb : b.TreeBelow root := h.congr hchildren hsize
  refine ⟨fun c => ⟨fun hc => hc.unique h.linksBelow, fun hc => hc ▸ h.linksBelow⟩,
    fun key child hheld => h.parentOf_linkBelow hheld, h.not_below_self .refl,
    fun x hx => h.get?_linkBelow hx, h.get?_linkBelow_eq, ?_,
    fun x => mem_walkWithin_iff h.shallow, ext_get? fun x => ?_⟩
  · rw [walk, hsize, walkWithin_congr hchildren]
    rfl
  · by_cases hx : b.Below root x
    · obtain ⟨key, hkey⟩ := below_iff.mp hx
      have hkey' : a.Holds root key x := by rwa [holds_congr hchildren] at hkey
      have hparent : (b.linkBelow root).parentOf x = b.parentOf x :=
        (hb.parentOf_linkBelow hkey).trans (h.parentOf_linkBelow hkey').symm
      -- The parent that is set once more is the one that is there.
      rw [hb.get?_linkBelow_eq x, hparent, parentOf]
      cases b.get? x <;> rfl
    · exact hb.get?_linkBelow hx

/-- Two blocks in a method, one in the other, and apart from them two scopes that are each
other's children. -/
theorem linkBelow_sets_subtree_method :
    let a : Arena := { scopes := [
      { kind := .global, children := [1] },
      { kind := .class_, name := "A", children := [2], parent := some 0 },
      { kind := .method, name := "m", children := [3], parent := some 1 },
      { kind := .block, children := [4] },
      { kind := .block },
      { kind := .block, children := [6], parent := some 2 },
      { kind := .block, children := [5] }] }
    let b := a.linkBelow 2
    a.TreeBelow 2 ∧ (∀ c, a.LinksBelow 2 c ↔ c = b) ∧
      (∀ key child, a.Holds 2 key child → b.parentOf child = some key) ∧
      ¬ a.Below 2 2 ∧ (∀ x, ¬ a.Below 2 x → b.get? x = a.get? x) ∧
      (∀ x, b.get? x = (a.get? x).map fun s => { s with parent := b.parentOf x }) ∧
      b.walk 2 = a.walk 2 ∧ (∀ x, x ∈ a.walk 2 ↔ a.Within 2 x) ∧ b.linkBelow 2 = b := by
  intro a b
  have hstep : ∀ key child, a.HasChild key child → key = 2 ∧ child = 3 ∨ key = 3 ∧ child = 4 ∨
      key ≠ 2 ∧ key ≠ 3 ∧ key ≠ 4 := by
    intro key child hchild
    by_cases hkey : key = 2 ∨ key = 3 ∨ key = 4
    · rcases hkey with rfl | rfl | rfl
      · exact .inl ⟨rfl, List.mem_singleton.mp hchild⟩
      · exact .inr (.inl ⟨rfl, List.mem_singleton.mp hchild⟩)
      · cases hchild
    · omega
  have hwithin : ∀ x, a.Within 2 x → x = 2 ∨ x = 3 ∨ x = 4 := by
    intro x hx
    induction hx with
    | refl => exact .inl rfl
    | @tail y x _ hyx ih =>
      have := hstep y x hyx
      omega
  have hholds : ∀ key child, a.Holds 2 key child → key = 2 ∧ child = 3 ∨ key = 3 ∧ child = 4 := by
    intro key child hheld
    have hkey := hwithin key hheld.1
    have := hstep key child hheld.2
    omega
  have h : a.TreeBelow 2 := by
    refine ⟨by decide, fun key child hheld => ?_, fun key key' child hheld hheld' => ?_,
      fun key hheld => ?_⟩
    · have hsize : a.size = 7 := rfl
      have := hholds key child hheld
      omega
    · have := hholds key child hheld
      have := hholds key' child hheld'
      omega
    · have := hholds key 2 hheld
      omega
  exact ⟨h, linkBelow_sets_subtree a 2 h⟩

end Arena

end IcFront
