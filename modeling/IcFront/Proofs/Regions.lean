import IcFront.Proofs.Outline
import Mathlib.Data.List.Nodup

/-!
# Where regions lie

The regions of an outline tell twice how they lie in each other: each names the
region around it and lists those inside it. Here both are shown to tell the same
(`inner_eq_within`), with what follows for kinds: a class lies in the program, a
method in a class, and a block in a method or a block (`outer_mayHold`).

The classes of a program lie at `Program.classKeys`.
-/

namespace IcFront

variable {ε : Type} {outer : Option Nat} {key : Nat}

namespace Outline

/-! ## Positions -/

theorem mem_keys {os : List Outline} {k : Nat} (h : k ∈ keys key os) :
    key ≤ k ∧ k < key + sizes os := by
  induction os generalizing key with
  | nil => exact absurd h List.not_mem_nil
  | cons o os ih =>
    rw [sizes]
    rcases List.mem_cons.mp h with rfl | hrest
    · cases o
      rw [Outline.size]
      omega
    · have := ih hrest
      omega

/-- Outlines lie one after the other. -/
theorem pairwise_keys (key : Nat) (os : List Outline) : (keys key os).Pairwise (· < ·) := by
  induction os generalizing key with
  | nil => exact .nil
  | cons o os ih =>
    refine .cons (fun k hk => ?_) (ih _)
    have hsize : 0 < o.size := by cases o; exact Nat.succ_pos _
    have := mem_keys hk
    omega

theorem nodup_keys (key : Nat) (os : List Outline) : (keys key os).Nodup :=
  (pairwise_keys key os).imp fun h => Nat.ne_of_lt h

/-- The regions of outlines with their positions. -/
def placed (outer : Option Nat) (key : Nat) (os : List Outline) : List (Region × Nat) :=
  (regionsOf outer key os).zipIdx key

theorem placed_region_cons (outer : Option Nat) (key : Nat) (kind : ScopeKind) (name : String)
    (xs : List Declaration) (inner os : List Outline) :
    placed outer key (.region kind name xs inner :: os) =
      (⟨kind, name, xs, outer, keys (key + 1) inner⟩, key) ::
        (placed (some key) (key + 1) inner ++ placed outer (key + (sizes inner + 1)) os) := by
  rw [placed, regionsOf, regions, size, List.cons_append, List.zipIdx_cons, List.zipIdx_append,
    length_regionsOf, placed, placed, Nat.add_right_comm key 1, Nat.add_assoc key]

/-- The outer region of a region is the one around all of them, or lies before it. -/
theorem outer_of_mem_placed {r : Region} {k : Nat} :
    ∀ {outer : Option Nat} {key : Nat} (os : List Outline), (r, k) ∈ placed outer key os →
      key ≤ k ∧ k < key + sizes os ∧
        (r.outer = outer ∨ ∃ o, r.outer = some o ∧ key ≤ o ∧ o < k)
  | _, _, [], h => absurd h List.not_mem_nil
  | outer, key, .region kind name xs inner :: os, h => by
    rw [placed_region_cons, List.mem_cons, List.mem_append] at h
    rw [sizes, Outline.size]
    rcases h with hhead | hinner | hrest
    · obtain ⟨rfl, rfl⟩ := Prod.mk.inj hhead
      exact ⟨Nat.le_refl _, by omega, Or.inl rfl⟩
    · obtain ⟨hle, hlt, hin⟩ := outer_of_mem_placed inner hinner
      refine ⟨by omega, by omega, Or.inr ?_⟩
      rcases hin with ho | ⟨o, ho, hko, hok⟩
      · exact ⟨key, ho, Nat.le_refl _, by omega⟩
      · exact ⟨o, ho, by omega, hok⟩
    · obtain ⟨hle, hlt, hin⟩ := outer_of_mem_placed os hrest
      refine ⟨by omega, by omega, ?_⟩
      rcases hin with ho | ⟨o, ho, hko, hok⟩
      · exact Or.inl ho
      · exact Or.inr ⟨o, ho, by omega, hok⟩
  termination_by _ _ os => sizes os
  decreasing_by all_goals simp only [sizes, Outline.size]; omega

/-- The positions of those regions that name a region as the one around them. -/
def within (outer : Option Nat) (rs : List (Region × Nat)) : List Nat :=
  (rs.filter fun r => r.1.outer = outer).map (·.2)

theorem within_append (outer : Option Nat) (rs rs' : List (Region × Nat)) :
    within outer (rs ++ rs') = within outer rs ++ within outer rs' := by
  simp [within]

theorem within_cons (x : Option Nat) (r : Region) (k : Nat) (rs : List (Region × Nat)) :
    within x ((r, k) :: rs) = (if r.outer = x then [k] else []) ++ within x rs := by
  by_cases h : r.outer = x <;> simp [within, h]

theorem mem_within {x : Option Nat} {rs : List (Region × Nat)} {k : Nat} :
    k ∈ within x rs ↔ ∃ r, (r, k) ∈ rs ∧ r.outer = x := by
  simp [within]

/-- Regions elsewhere have none of these inside them. -/
theorem within_eq_nil {x : Option Nat} {os : List Outline} (hne : x ≠ outer)
    (hrange : ∀ o, x = some o → o < key ∨ key + sizes os ≤ o) :
    within x (placed outer key os) = [] := by
  rw [List.eq_nil_iff_forall_not_mem]
  intro k hk
  obtain ⟨r, hr, hx⟩ := mem_within.mp hk
  obtain ⟨_, hlt, hin⟩ := outer_of_mem_placed os hr
  rcases hin with ho | ⟨o, ho, hle, hok⟩
  · exact hne (hx.symm.trans ho)
  · rcases hrange o (hx.symm.trans ho) with h | h <;> omega

/-- Directly inside the region around all of them are the outermost ones. -/
theorem within_outer (hout : ∀ o, outer = some o → o < key) (os : List Outline) :
    within outer (placed outer key os) = keys key os := by
  induction os generalizing key with
  | nil => rfl
  | cons o os ih =>
    obtain ⟨kind, name, xs, inner⟩ := o
    have hne : outer ≠ some key := fun h => absurd (hout key h) (Nat.lt_irrefl key)
    -- What lies inside the first outline names that one or a later one.
    have hinner : within outer (placed (some key) (key + 1) inner) = [] :=
      within_eq_nil hne fun o ho => Or.inl (Nat.lt_succ_of_lt (hout o ho))
    rw [placed_region_cons, within_cons, within_append, hinner,
      ih fun o ho => Nat.lt_add_right _ (hout o ho), if_pos rfl, keys, Outline.size]
    rfl

/-- The regions that a region lists are those that name it, in their order. -/
theorem inner_eq_within {r : Region} {k : Nat} :
    ∀ {outer : Option Nat} {key : Nat} (os : List Outline),
      (∀ o, outer = some o → o < key) → (r, k) ∈ placed outer key os →
        r.inner = within (some k) (placed outer key os)
  | _, _, [], _, h => absurd h List.not_mem_nil
  | outer, key, .region kind name xs inner :: os, hout, h => by
    have hne : ∀ j, key ≤ j → outer ≠ some j := fun j hj ho => by
      have := hout j ho
      omega
    rw [placed_region_cons] at h ⊢
    rw [within_cons, within_append, List.mem_cons, List.mem_append] at *
    -- Of the three parts of the list only the one that the region lies in counts.
    rcases h with hhead | hinner | hrest
    · obtain ⟨rfl, rfl⟩ := Prod.mk.inj hhead
      rw [if_neg (hne k (Nat.le_refl k)), within_outer (fun o ho => by
          obtain rfl := Option.some.inj ho
          exact Nat.lt_succ_self k),
        within_eq_nil (hne k (Nat.le_refl k)).symm fun o ho => Or.inl (by
          obtain rfl := Option.some.inj ho
          omega)]
      simp
    · obtain ⟨hle, hlt, _⟩ := outer_of_mem_placed inner hinner
      rw [if_neg (hne k (by omega)), ← inner_eq_within inner (fun o ho => by
          obtain rfl := Option.some.inj ho
          exact Nat.lt_succ_self key) hinner,
        within_eq_nil (hne k (by omega)).symm fun o ho => Or.inl (by
          obtain rfl := Option.some.inj ho
          omega)]
      simp
    · obtain ⟨hle, hlt, _⟩ := outer_of_mem_placed os hrest
      rw [if_neg (hne k (by omega)), ← inner_eq_within os (fun o ho => by
          have := hout o ho
          omega) hrest,
        within_eq_nil (by intro h; have := Option.some.inj h; omega) fun o ho => Or.inr (by
          obtain rfl := Option.some.inj ho
          omega)]
      simp
  termination_by _ _ os => sizes os
  decreasing_by all_goals simp only [sizes, Outline.size]; omega

end Outline

/-! ## Kinds -/

/-- Whether a scope of one kind may hold one of another as its child. -/
def ScopeKind.mayHold : (outer inner : ScopeKind) → Bool
  | global, class_ | class_, class_ | class_, method | method, block | block, block => true
  | _, _ => false

namespace Outline

mutual

/-- Whether an outline may lie in a region of a kind, and all in it in theirs. -/
def Fits (outer : ScopeKind) : Outline → Prop
  | .region kind _ _ inner => outer.mayHold kind ∧ AllFit kind inner

/-- Whether outlines may lie in a region of a kind. -/
def AllFit (outer : ScopeKind) : List Outline → Prop
  | [] => True
  | o :: os => o.Fits outer ∧ AllFit outer os

end

theorem allFit_append {outer : ScopeKind} {os os' : List Outline} (h : AllFit outer os)
    (h' : AllFit outer os') : AllFit outer (os ++ os') := by
  induction os with
  | nil => exact h'
  | cons o os ih => exact ⟨h.1, ih h.2⟩

theorem allFit_map {α : Type} {outer : ScopeKind} {f : α → Outline}
    (h : ∀ x, (f x).Fits outer) (xs : List α) : AllFit outer (xs.map f) := by
  induction xs with
  | nil => trivial
  | cons x xs ih => exact ⟨h x, ih⟩

/-- A region that names another as the one around it may lie there. -/
theorem outer_mayHold {r : Region} {k : Nat} {K : ScopeKind} :
    ∀ {outer : Option Nat} {key : Nat} (os : List Outline), AllFit K os →
      (r, k) ∈ placed outer key os → (r.outer = outer ∧ K.mayHold r.kind = true) ∨
        ∃ r' o, (r', o) ∈ placed outer key os ∧ r.outer = some o ∧ r'.kind.mayHold r.kind = true
  | _, _, [], _, h => absurd h List.not_mem_nil
  | outer, key, .region kind name xs inner :: os, hfit, h => by
    obtain ⟨⟨hkind, hin⟩, hfits⟩ := hfit
    rw [placed_region_cons, List.mem_cons, List.mem_append] at h
    rw [placed_region_cons]
    rcases h with hhead | hinner | hrest
    · obtain ⟨rfl, rfl⟩ := Prod.mk.inj hhead
      exact Or.inl ⟨rfl, hkind⟩
    · rcases outer_mayHold inner hin hinner with ⟨ho, hhold⟩ | ⟨r', o, hr', ho, hhold⟩
      · exact Or.inr ⟨_, key, List.mem_cons_self, ho, hhold⟩
      · exact Or.inr ⟨r', o, List.mem_cons_of_mem _ (List.mem_append_left _ hr'), ho, hhold⟩
    · rcases outer_mayHold os hfits hrest with hhold | ⟨r', o, hr', ho, hhold⟩
      · exact Or.inl hhold
      · exact Or.inr ⟨r', o, List.mem_cons_of_mem _ (List.mem_append_right _ hr'), ho, hhold⟩
  termination_by _ _ os => sizes os
  decreasing_by all_goals simp only [sizes, Outline.size]; omega

end Outline

open Outline

mutual

theorem Stmt.blocks_fit {outer : ScopeKind} (houter : outer.mayHold .block = true) :
    ∀ s : Stmt ε, AllFit outer s.blocks
  | .block body _ _ => by
    rw [Stmt.blocks]
    exact ⟨⟨houter, Stmt.blocksOf_fit rfl body⟩, trivial⟩
  | .ifThen _ body _ => by
    rw [Stmt.blocks]
    exact Stmt.blocks_fit houter body
  | .ifElse _ body otherwise _ => by
    rw [Stmt.blocks]
    exact allFit_append (Stmt.blocks_fit houter body) (Stmt.blocks_fit houter otherwise)
  | .while_ _ body _ => by
    rw [Stmt.blocks]
    exact Stmt.blocks_fit houter body
  | .localVar .. | .assign .. | .call .. | .return_ .. | .break_ _ | .continue_ _ => by
    rw [Stmt.blocks]
    · trivial
    all_goals simp

theorem Stmt.blocksOf_fit {outer : ScopeKind} (houter : outer.mayHold .block = true) :
    ∀ ss : List (Stmt ε), AllFit outer (Stmt.blocksOf ss)
  | [] => trivial
  | s :: ss => allFit_append (Stmt.blocks_fit houter s) (Stmt.blocksOf_fit houter ss)

end

theorem Method.outline_fits (m : Method ε) : m.outline.Fits .class_ :=
  ⟨rfl, Stmt.blocksOf_fit rfl m.form.body⟩

theorem ClassDecl.outline_fits (c : ClassDecl ε) : c.outline.Fits .global :=
  ⟨rfl, allFit_map Method.outline_fits c.methods⟩

end IcFront
