import IcFront.Proofs.Scopes.Edit
import IcFront.Proofs.Scopes.Tree
import IcFront.Proofs.Steps
import IcFront.Scopes.Listing
import IcFront.Syntax.Part

/-!
# Scopes, checked

Searches among scopes stop after as many steps as there are scopes, and pass over a
key that no scope has. The functions of this file do the same and complain instead
(`Fault`): a search that is not over when it has to stop is endless, and a key without
a scope is missing. In a tree of scopes nothing is to complain about: the ancestors of
a scope are found (`ancestorsChecked_eq`), a walk visits what lies below a scope
(`IsTree.walkChecked_eq`), and every scope of the tree can be listed
(`IsTree.section_checked`).
-/

namespace IcFront

/-- What might stop the construction or the listing of tables. -/
inductive Fault
  | malformed (e : Malformed)
  | types (e : TypeFault)
  | missingScope (key : Nat)
  | endless (key : Nat)
  /-- A class that has a superclass but no scope to lie below. -/
  | unplaced (className : String)
  deriving DecidableEq, Repr

namespace Arena

/-! ## Checked searches -/

/-- `linkWithin`, checked. -/
def linkChecked : (depth : Nat) → Arena → (root : Nat) → Except Fault Arena
  | 0, _, root => .error (.endless root)
  | depth + 1, a, root =>
    match a.get? root with
    | none => .error (.missingScope root)
    | some scope =>
      scope.children.foldlM (fun a child => linkChecked depth (a.setParent child root) child) a

/-- `ancestorsWithin`, checked. -/
def ancestorsChecked (a : Arena) : (depth : Nat) → (key : Nat) → Except Fault (List Nat)
  | 0, key => .error (.endless key)
  | depth + 1, key =>
    match a.get? key with
    | none => .error (.missingScope key)
    | some scope =>
      match scope.parent with
      | none => .ok []
      | some parent => do
        let further ← a.ancestorsChecked depth parent
        return parent :: further

/-- `walkWithin`, checked. -/
def walkChecked (a : Arena) : (depth : Nat) → (root : Nat) → Except Fault (List Nat)
  | 0, root => .error (.endless root)
  | depth + 1, root =>
    match a.get? root with
    | none => .error (.missingScope root)
    | some scope => do
      let below ← scope.children.mapM (a.walkChecked depth)
      return root :: below.flatten

/-! ## Checked listings -/

/-- `label`, checked. -/
def labelChecked (a : Arena) (key : Nat) : Except Fault String :=
  match a.get? key with
  | none => .error (.missingScope key)
  | some scope =>
    match scope.kind with
    | .block => do
      let around ← a.ancestorsChecked a.size key
      return "statement block in " ++
        match (key :: around).find? a.isMethod with
        | some m => a.nameOf m
        | none => "?"
    | _ => .ok scope.name

/-- `heading`, checked. -/
def headingChecked (a : Arena) (scope : Scope) : Except Fault String :=
  match scope.kind with
  | .block => do
    let place ← match scope.parent with
      | some parent => a.labelChecked parent
      | none => pure "?"
    return "Statement Block Symbol Table ( located in " ++ place ++ " )"
  | kind => .ok (kind.text ++ " Symbol Table: " ++ scope.name)

/-- `childrenLine`, checked. -/
def childrenLineChecked (a : Arena) (scope : Scope) : Except Fault (List String) := do
  let labels ← scope.children.mapM a.labelChecked
  return if scope.children.isEmpty then [] else ["Children tables: " ++ ", ".intercalate labels]

/-- `section_`, checked. -/
def sectionChecked (a : Arena) (types : TypeTable) (key : Nat) : Except Fault String :=
  match a.get? key with
  | none => .error (.missingScope key)
  | some scope => do
    let heading ← a.headingChecked scope
    let symbols ← (scope.symbols.mapM (Symbol.listing types)).mapError .types
    let children ← a.childrenLineChecked scope
    return "\n".intercalate (heading :: symbols.map ("    " ++ ·) ++ children)

/-- `listing`, checked. -/
def listingChecked (a : Arena) (types : TypeTable) (root : Nat) : Except Fault String := do
  let keys ← a.walkChecked a.size root
  let sections ← keys.mapM (a.sectionChecked types)
  return "\n\n".intercalate sections ++ "\n"

/-! ## Nothing to complain about -/

variable {a : Arena} {root key : Nat}

/-- Linking that has nothing to complain about is linking. -/
theorem linkWithin_of_linkChecked {depth : Nat} {b : Arena}
    (h : linkChecked depth a root = .ok b) : linkWithin depth a root = b := by
  induction depth generalizing a root b with
  | zero => cases h
  | succ depth ih =>
    rw [linkChecked] at h
    rw [linkWithin, childrenOf]
    split at h
    next => cases h
    next scope hscope =>
      rw [hscope]
      exact foldl_of_foldlM_ok (fun _ _ _ hstep => ih hstep) h

/-- A search for ancestors that ends finds the ancestors. -/
theorem ancestorsChecked_eq_ancestorsWithin (hclosed : a.Closed) {depth : Nat}
    (hend : follow a.parentOf depth key = none) (hkey : key < a.size) :
    a.ancestorsChecked depth key = .ok (a.ancestorsWithin depth key) := by
  induction depth generalizing key with
  | zero => cases hend
  | succ depth ih =>
    obtain ⟨scope, hscope⟩ := get?_eq_some hkey
    have hparent : a.parentOf key = scope.parent := by rw [parentOf, hscope, Option.bind_some]
    rw [ancestorsChecked, ancestorsWithin, hscope, hparent]
    dsimp only
    cases hp : scope.parent with
    | none => rfl
    | some parent =>
      rw [hp] at hparent
      rw [follow_succ, hparent, Option.bind_some] at hend
      simp only [ih hend (hclosed key parent hparent)]
      rfl

/-- Without cycles the ancestors of a scope are found. -/
theorem ancestorsChecked_eq (hclosed : a.Closed) (hac : Acyclic a.parentOf) (hkey : key < a.size) :
    a.ancestorsChecked a.size key = .ok (a.ancestors key) :=
  ancestorsChecked_eq_ancestorsWithin hclosed (follow_eq_none_of_acyclic hclosed hac hkey) hkey

theorem labelChecked_eq (hclosed : a.Closed) (hac : Acyclic a.parentOf) (hkey : key < a.size) :
    a.labelChecked key = .ok (a.label key) := by
  obtain ⟨scope, hscope⟩ := get?_eq_some hkey
  unfold labelChecked label
  rw [hscope]
  dsimp only
  cases scope.kind with
  | block =>
    simp only [ancestorsChecked_eq hclosed hac hkey]
    rfl
  | _ => rfl

namespace IsTree

variable (h : a.IsTree root)
include h

theorem lt_size_of_mem_childrenOf {child : Nat} (hchild : child ∈ a.childrenOf key) :
    child < a.size :=
  lt_size_of_parentOf ((h.mem_childrenOf key child).mp hchild)

/-- A walk that goes as deep as there are scopes below its start visits all of
them. -/
theorem walkChecked_eq_walkWithin {depth : Nat} (hkey : key < a.size)
    (hdepth : ∀ m x, follow a.parentOf m x = some key → m < depth) :
    a.walkChecked depth key = .ok (a.walkWithin depth key) := by
  induction depth generalizing key with
  | zero => exact absurd (hdepth 0 key rfl) (Nat.lt_irrefl 0)
  | succ depth ih =>
    obtain ⟨scope, hscope⟩ := get?_eq_some hkey
    have hchildren : a.childrenOf key = scope.children := by rw [childrenOf, hscope]
    have hbelow : scope.children.mapM (a.walkChecked depth) =
        .ok (scope.children.map (a.walkWithin depth)) := by
      have hone : ∀ child ∈ scope.children,
          a.walkChecked depth child = .ok (a.walkWithin depth child) := by
        intro child hchild
        rw [← hchildren] at hchild
        refine ih (h.lt_size_of_mem_childrenOf hchild) fun m x hx => ?_
        have hparent := (h.mem_childrenOf key child).mp hchild
        exact Nat.lt_of_succ_lt_succ
          (hdepth (m + 1) x (follow_succ_eq_some.mpr ⟨child, hx, hparent⟩))
      have hall := mapM_eq_ok (g := fun child => child) hone
      rwa [List.map_id'] at hall
    rw [walkChecked, walkWithin, hscope, hchildren]
    simp only [hbelow]
    rw [List.flatMap_def]
    rfl

/-- A walk from the root of a tree visits all scopes there are. -/
theorem walkChecked_eq : a.walkChecked a.size root = .ok (a.walk root) := by
  refine h.walkChecked_eq_walkWithin h.root_lt fun m x hm => ?_
  have hx : x < a.size := by
    cases m with
    | zero => exact Option.some.inj hm ▸ h.root_lt
    | succ m =>
      obtain ⟨z, hz, _⟩ := Option.bind_eq_some_iff.mp hm
      exact lt_size_of_parentOf hz
  -- The way from `x` to the root is over before as many steps as there are scopes.
  have hend := follow_eq_none_of_acyclic h.closed h.acyclic hx
  by_contra hlong
  obtain ⟨z, hz, _⟩ := follow_of_le hm (Nat.le_of_not_lt hlong)
  exact absurd (hend.symm.trans hz) (by simp)

theorem headingChecked_eq {scope : Scope} (hscope : a.get? key = some scope) :
    a.headingChecked scope = .ok (a.heading scope) := by
  unfold headingChecked heading
  cases scope.kind with
  | block =>
    cases hp : scope.parent with
    | none => rfl
    | some parent =>
      have hparent : a.parentOf key = some parent := by
        rw [parentOf, hscope, Option.bind_some, hp]
      simp only [labelChecked_eq h.closed h.acyclic (h.closed key parent hparent)]
      rfl
  | _ => rfl

theorem childrenLineChecked_eq {scope : Scope} (hscope : a.get? key = some scope) :
    a.childrenLineChecked scope = .ok (a.childrenLine scope) := by
  have hlabels : scope.children.mapM a.labelChecked = .ok (scope.children.map a.label) := by
    have hone : ∀ child ∈ scope.children, a.labelChecked child = .ok (a.label child) := by
      intro child hchild
      have hmem : child ∈ a.childrenOf key := by rwa [childrenOf, hscope]
      exact labelChecked_eq h.closed h.acyclic (h.lt_size_of_mem_childrenOf hmem)
    have hall := mapM_eq_ok (g := fun child => child) hone
    rwa [List.map_id'] at hall
  rw [childrenLineChecked, hlabels]
  rfl

/-- Every scope of a tree can be listed whose symbols can. -/
theorem section_checked {types : TypeTable} (hkey : key < a.size)
    (hsymbols : ∀ scope, a.get? key = some scope →
      ∀ s ∈ scope.symbols, ∃ text, Symbol.listing types s = .ok text) :
    ∃ text, a.sectionChecked types key = .ok text ∧ a.section_ types key = .ok text := by
  obtain ⟨scope, hscope⟩ := get?_eq_some hkey
  obtain ⟨lines, hlines⟩ := exists_mapM_ok (hsymbols scope hscope)
  refine ⟨"\n".intercalate
    (a.heading scope :: lines.map ("    " ++ ·) ++ a.childrenLine scope), ?_, ?_⟩
  · rw [sectionChecked, hscope]
    simp only [h.headingChecked_eq hscope, h.childrenLineChecked_eq hscope, hlines]
    rfl
  · rw [section_, hscope]
    simp only [hlines]
    rfl

/-- A tree can be listed whose symbols can. -/
theorem listing_checked {types : TypeTable}
    (hsymbols : ∀ scope ∈ a.scopes, ∀ s ∈ scope.symbols,
      ∃ text, Symbol.listing types s = .ok text) :
    ∃ text, a.listingChecked types root = .ok text ∧ a.listing types root = .ok text := by
  have hsections : ∀ key ∈ a.walk root, ∃ text,
      a.sectionChecked types key = .ok text ∧ a.section_ types key = .ok text := by
    intro key hkey
    refine h.section_checked (List.mem_range.mp (h.walk_perm.mem_iff.mp hkey)) ?_
    exact fun scope hscope => hsymbols scope (List.mem_of_getElem? hscope)
  obtain ⟨texts, htexts, htexts'⟩ := exists_mapM_ok_both hsections
  refine ⟨"\n\n".intercalate texts ++ "\n", ?_, ?_⟩
  · rw [listingChecked, h.walkChecked_eq]
    simp only [Except.bind, bind, htexts]
    rfl
  · rw [listing, htexts']
    rfl

end IsTree

end Arena

end IcFront
