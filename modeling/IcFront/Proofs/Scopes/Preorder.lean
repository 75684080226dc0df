import IcFront.Proofs.Scopes.Linking
import IcFront.Proofs.Scopes.Tree

/-!
# Trees read back from walks

A walk lists the scopes of a tree one after the other, and does not tell where one branch
ends and the next begins. It is enough to know of each scope how many children it has: an
ordered tree is determined by its nodes in pre-order with these numbers
(`OrderedTree.eq_of_preorder`). The induction goes over a tree and a list of as many trees as
are known to come, each with anything after it.

So two arenas that are trees look the same from their roots if the scopes on the walks look
the same and have as many children (`Arena.IsTree.tree_eq_of_walk`). That walks go deep
enough is because a tree is no deeper than it has scopes (`Arena.IsTree.shallow`); this also
gives `walk` and `tree` their equations, in which there is no depth.
-/

namespace IcFront

/-- A tree with a mark at each node, and the children of each node in order. -/
inductive OrderedTree (α : Type)
  | node (mark : α) (inner : List (OrderedTree α))

namespace OrderedTree

variable {α : Type}

mutual

/-- The marks of the nodes with how many children each has, a node before its children. -/
def preorder : OrderedTree α → List (α × Nat)
  | node mark inner => (mark, inner.length) :: preorderOf inner

/-- The nodes of trees that stand side by side. -/
def preorderOf : List (OrderedTree α) → List (α × Nat)
  | [] => []
  | t :: ts => t.preorder ++ preorderOf ts

end

theorem preorderOf_map {β : Type} (f : β → OrderedTree α) (xs : List β) :
    preorderOf (xs.map f) = xs.flatMap fun x => (f x).preorder := by
  induction xs with
  | nil => rfl
  | cons x xs ih => rw [List.map_cons, preorderOf, ih, List.flatMap_cons]

mutual

/-- Where a tree ends is told by the numbers of children. -/
theorem eq_of_preorder_append : ∀ {t t' : OrderedTree α} {rest rest' : List (α × Nat)},
    t.preorder ++ rest = t'.preorder ++ rest' → t = t' ∧ rest = rest'
  | node mark inner, node mark' inner', rest, rest', h => by
    rw [preorder, preorder, List.cons_append, List.cons_append] at h
    obtain ⟨hnode, hinner⟩ := List.cons.inj h
    obtain ⟨rfl, hlength⟩ := Prod.mk.inj hnode
    obtain ⟨rfl, hrest⟩ := eq_of_preorderOf_append hlength hinner
    exact ⟨rfl, hrest⟩

theorem eq_of_preorderOf_append : ∀ {ts ts' : List (OrderedTree α)} {rest rest' : List (α × Nat)},
    ts.length = ts'.length → preorderOf ts ++ rest = preorderOf ts' ++ rest' →
      ts = ts' ∧ rest = rest'
  | [], [], _, _, _, h => ⟨rfl, h⟩
  -- As many trees are to come, so that both rows end at the same place.
  | t :: ts, t' :: ts', rest, rest', hlength, h => by
    rw [preorderOf, preorderOf, List.append_assoc, List.append_assoc] at h
    obtain ⟨rfl, hothers⟩ := eq_of_preorder_append h
    obtain ⟨rfl, hrest⟩ := eq_of_preorderOf_append (Nat.succ.inj hlength) hothers
    exact ⟨rfl, hrest⟩

end

/-- A tree is determined by its nodes in pre-order with their numbers of children. -/
theorem eq_of_preorder {t t' : OrderedTree α} (h : t.preorder = t'.preorder) : t = t' :=
  (eq_of_preorder_append (congrArg (· ++ []) h)).1

end OrderedTree

namespace Arena

variable {α : Type} {a a' : Arena} {mark mark' : Nat → α} {root root' key depth depth' : Nat}

/-- The tree of a scope and at most `depth` levels below it. -/
def treeWithin (a : Arena) (mark : Nat → α) : (depth : Nat) → (root : Nat) → OrderedTree α
  | 0, root => .node (mark root) []
  | depth + 1, root => .node (mark root) ((a.childrenOf root).map (a.treeWithin mark depth))

/-- The tree of a scope and all below it. -/
def tree (a : Arena) (mark : Nat → α) (root : Nat) : OrderedTree α := a.treeWithin mark a.size root

/-! ## Depth -/

theorem walkWithin_of_shallow (h : Shallow a.childrenOf depth key) (hle : depth ≤ depth') :
    a.walkWithin depth' key = a.walkWithin depth key := by
  induction depth generalizing key depth' with
  | zero => exact h.elim
  | succ depth ih =>
    obtain ⟨depth', rfl⟩ : ∃ d, depth' = d + 1 := ⟨depth' - 1, by omega⟩
    rw [walkWithin, walkWithin]
    exact congrArg (key :: ·) (List.flatMap_congr fun child hchild =>
      ih (h child hchild) (Nat.le_of_succ_le_succ hle))

theorem treeWithin_of_shallow (h : Shallow a.childrenOf depth key) (hle : depth ≤ depth') :
    a.treeWithin mark depth' key = a.treeWithin mark depth key := by
  induction depth generalizing key depth' with
  | zero => exact h.elim
  | succ depth ih =>
    obtain ⟨depth', rfl⟩ : ∃ d, depth' = d + 1 := ⟨depth' - 1, by omega⟩
    rw [treeWithin, treeWithin]
    exact congrArg (OrderedTree.node (mark key)) (List.map_congr_left fun child hchild =>
      ih (h child hchild) (Nat.le_of_succ_le_succ hle))

/-- The nodes of the tree are the scopes of the walk. -/
theorem preorder_treeWithin (h : Shallow a.childrenOf depth key) :
    (a.treeWithin mark depth key).preorder =
      (a.walkWithin depth key).map fun k => (mark k, (a.childrenOf k).length) := by
  induction depth generalizing key with
  | zero => exact h.elim
  | succ depth ih =>
    rw [treeWithin, walkWithin, OrderedTree.preorder, OrderedTree.preorderOf_map, List.map_cons,
      List.length_map, List.map_flatMap]
    exact congrArg _ (List.flatMap_congr fun child hchild => ih (h child hchild))

namespace IsTree

variable (h : a.IsTree root)
include h

/-- The farther a scope is from the root, the less deep it goes on below it. -/
theorem shallow_of_follow {m : Nat} (hkey : key < a.size)
    (hroot : follow a.parentOf m key = some root) (hdepth : a.size ≤ m + depth) :
    Shallow a.childrenOf depth key := by
  induction depth generalizing m key with
  | zero =>
    -- No way to the root is so long.
    obtain ⟨z, hz, -⟩ := follow_of_le hroot hdepth
    rw [follow_eq_none_of_acyclic h.closed h.acyclic hkey] at hz
    cases hz
  | succ depth ih =>
    intro child hchild
    have hparent := (h.mem_childrenOf key child).mp hchild
    have hstep : follow a.parentOf (m + 1) child = some root := by
      rw [follow_succ, hparent]
      exact hroot
    exact ih (lt_size_of_parentOf hparent) hstep (by omega)

/-- A tree is no deeper than it has scopes. -/
theorem shallow (hkey : key < a.size) : Shallow a.childrenOf a.size key := by
  obtain ⟨m, hm⟩ := reflTransGen_iff_follow.mp (h.reaches_root key hkey)
  exact h.shallow_of_follow hkey hm (Nat.le_add_left a.size m)

/-- A walk comes to a scope, and then walks along its children. -/
theorem walk_eq (hkey : key < a.size) : a.walk key = key :: (a.childrenOf key).flatMap a.walk := by
  have hdeeper : a.walkWithin (a.size + 1) key = a.walkWithin a.size key :=
    walkWithin_of_shallow (h.shallow hkey) (Nat.le_succ a.size)
  exact hdeeper.symm

/-- The children of a node are the trees of the children. -/
theorem tree_eq (hkey : key < a.size) :
    a.tree mark key = .node (mark key) ((a.childrenOf key).map (a.tree mark)) := by
  have hdeeper : a.treeWithin mark (a.size + 1) key = a.treeWithin mark a.size key :=
    treeWithin_of_shallow (h.shallow hkey) (Nat.le_succ a.size)
  exact hdeeper.symm

/-- Two trees of scopes look the same if the scopes on the walks do. -/
theorem tree_eq_of_walk (h' : a'.IsTree root')
    (hwalk : (a.walk root).map (fun k => (mark k, (a.childrenOf k).length)) =
      (a'.walk root').map fun k => (mark' k, (a'.childrenOf k).length)) :
    a.tree mark root = a'.tree mark' root' := by
  refine OrderedTree.eq_of_preorder ?_
  rw [tree, tree, preorder_treeWithin (h.shallow h.root_lt),
    preorder_treeWithin (h'.shallow h'.root_lt)]
  exact hwalk

end IsTree

end Arena

end IcFront
