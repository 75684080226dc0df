import IcFront.Proofs.Tables.Forest

/-!
# Outlines at other positions

The regions of an outline are the same wherever it stands, but for the positions that
they name (`Region.moved`, `Outline.regions_moved`). So the regions of a program are
those of its classes, each class taken by itself and moved to its key
(`Program.mem_loose_iff`), and the position of a region tells the class that it belongs
to and its place in it (`Program.classKey_add_inj`).
-/

namespace IcFront

variable {ε : Type} {outer : Option Nat} {key : Nat}

/-- A region with all positions that it names greater by a number. -/
def Region.moved (n : Nat) (r : Region) : Region :=
  { r with outer := r.outer.map (· + n), inner := r.inner.map (· + n) }

namespace Outline

theorem keys_moved (key n : Nat) (os : List Outline) :
    keys (key + n) os = (keys key os).map (· + n) := by
  induction os generalizing key with
  | nil => rfl
  | cons o os ih => rw [keys, keys, List.map_cons, ← ih, Nat.add_right_comm]

mutual

theorem regions_moved (outer : Option Nat) (key n : Nat) :
    ∀ o : Outline, o.regions (outer.map (· + n)) (key + n) =
      (o.regions outer key).map (Region.moved n)
  | .region kind name xs inner => by
    have hinner := regionsOf_moved (some key) (key + 1) n inner
    rw [Option.map_some] at hinner
    rw [regions, regions, List.map_cons, Nat.add_right_comm key n 1, keys_moved, hinner]
    rfl

theorem regionsOf_moved (outer : Option Nat) (key n : Nat) :
    ∀ os : List Outline, regionsOf (outer.map (· + n)) (key + n) os =
      (regionsOf outer key os).map (Region.moved n)
  | [] => rfl
  | o :: os => by
    rw [regionsOf, regionsOf, List.map_append, regions_moved outer key n o,
      Nat.add_right_comm, regionsOf_moved outer (key + o.size) n os]

end

/-- The regions of outlines are those of each of them, at its key. -/
theorem mem_placed_iff {r : Region} {k : Nat} {os : List Outline} :
    (r, k) ∈ placed outer key os ↔ ∃ (i : Nat) (o : Outline) (start : Nat), os[i]? = some o ∧
      (keys key os)[i]? = some start ∧ (r, k) ∈ (o.regions outer start).zipIdx start := by
  induction os generalizing key with
  | nil =>
    constructor
    · intro h
      exact absurd h List.not_mem_nil
    · intro hex
      obtain ⟨i, o, start, ho, -⟩ := hex
      cases ho
  | cons o os ih =>
    have hsplit : placed outer key (o :: os) =
        (o.regions outer key).zipIdx key ++ placed outer (key + o.size) os := by
      rw [placed, regionsOf, List.zipIdx_append, length_regions, placed]
    rw [hsplit, List.mem_append, ih]
    constructor
    · intro hor
      rcases hor with hfirst | ⟨i, o', start, ho', hat, hmem⟩
      · exact ⟨0, o, key, rfl, rfl, hfirst⟩
      · exact ⟨i + 1, o', start, ho', hat, hmem⟩
    · intro hex
      obtain ⟨i, o', start, ho', hat, hmem⟩ := hex
      cases i with
      | zero =>
        obtain rfl := Option.some.inj ho'
        obtain rfl := Option.some.inj hat
        exact Or.inl hmem
      | succ i => exact Or.inr ⟨i, o', start, ho', hat, hmem⟩

/-- Outlines take up the positions from their keys on. -/
theorem add_size_le_of_lt {os : List Outline} {i j a b : Nat} {o : Outline} (hij : i < j)
    (ho : os[i]? = some o) (ha : (keys key os)[i]? = some a) (hb : (keys key os)[j]? = some b) :
    a + o.size ≤ b := by
  induction os generalizing key i j with
  | nil => cases ho
  | cons x os ih =>
    obtain ⟨j, rfl⟩ : ∃ n, j = n + 1 := ⟨j - 1, by omega⟩
    rw [keys, List.getElem?_cons_succ] at hb
    cases i with
    | zero =>
      obtain rfl := Option.some.inj ho
      obtain rfl := Option.some.inj ha
      exact (mem_keys (List.mem_of_getElem? hb)).1
    | succ i => exact ih (Nat.lt_of_succ_lt_succ hij) ho ha hb

theorem sizes_perm {os os' : List Outline} (h : os'.Perm os) : sizes os' = sizes os := by
  induction h with
  | nil => rfl
  | cons o _ ih => rw [sizes, sizes, ih]
  | swap o o' os => simp only [sizes, Nat.add_left_comm]
  | trans _ _ ih ih' => rw [ih, ih']

end Outline

open Outline

namespace Program

/-- The regions of a program are its own and those of its classes, each class at its
key. -/
theorem mem_loose_iff {p : Program ε} {name : String} {r : Region} {k : Nat} :
    (r, k) ∈ p.loose name ↔
      (r = ⟨.global, name, p.classes.map ClassDecl.declaration, none, []⟩ ∧ k = 0) ∨
        ∃ i c off r₀, p.classes[i]? = some c ∧ (c.outline.regions none 0)[off]? = some r₀ ∧
          r = r₀.moved (p.classKey i) ∧ k = p.classKey i + off := by
  have hmoved : ∀ (o : Outline) (n : Nat), o.regions none n =
      (o.regions none 0).map (Region.moved n) := by
    intro o n
    have h := regions_moved none 0 n o
    rwa [Nat.zero_add] at h
  rw [loose, List.mem_cons, Prod.mk.injEq, mem_placed_iff]
  refine or_congr_right ⟨fun hex => ?_, fun hex => ?_⟩
  · obtain ⟨i, o, start, ho, hat, hmem⟩ := hex
    rw [List.getElem?_map] at ho
    obtain ⟨c, hc, rfl⟩ := Option.map_eq_some_iff.mp ho
    have hi : i < p.classes.length := (List.getElem?_eq_some_iff.mp hc).1
    obtain rfl := Option.some.inj ((p.getElem?_classKeys hi).symm.trans hat)
    rw [hmoved, List.mk_mem_zipIdx_iff_le_and_getElem?_sub, List.getElem?_map] at hmem
    obtain ⟨hle, hr⟩ := hmem
    obtain ⟨r₀, hr₀, rfl⟩ := Option.map_eq_some_iff.mp hr
    exact ⟨i, c, k - p.classKey i, r₀, hc, hr₀, rfl, by omega⟩
  · obtain ⟨i, c, off, r₀, hc, hr₀, rfl, rfl⟩ := hex
    have hi : i < p.classes.length := (List.getElem?_eq_some_iff.mp hc).1
    refine ⟨i, c.outline, p.classKey i, ?_, p.getElem?_classKeys hi, ?_⟩
    · rw [List.getElem?_map, hc, Option.map_some]
    · rw [hmoved, List.mk_mem_zipIdx_iff_le_and_getElem?_sub, List.getElem?_map,
        Nat.add_sub_cancel_left, hr₀]
      exact ⟨Nat.le_add_right _ _, rfl⟩

/-- A key belongs to one class, at one place in it. -/
theorem classKey_add_inj {p : Program ε} {i j off off' : Nat} {c c' : ClassDecl ε}
    (hc : p.classes[i]? = some c) (hc' : p.classes[j]? = some c') (hoff : off < c.outline.size)
    (hoff' : off' < c'.outline.size) (h : p.classKey i + off = p.classKey j + off') :
    i = j ∧ off = off' := by
  have hkeys : ∀ {x y : Nat} {d d' : ClassDecl ε}, x < y → p.classes[x]? = some d →
      p.classes[y]? = some d' → p.classKey x + d.outline.size ≤ p.classKey y := by
    intro x y d d' hxy hd hd'
    have houtline : (p.classes.map ClassDecl.outline)[x]? = some d.outline := by
      rw [List.getElem?_map, hd, Option.map_some]
    exact add_size_le_of_lt hxy houtline
      (p.getElem?_classKeys (List.getElem?_eq_some_iff.mp hd).1)
      (p.getElem?_classKeys (List.getElem?_eq_some_iff.mp hd').1)
  rcases Nat.lt_trichotomy i j with hlt | rfl | hgt
  · have := hkeys hlt hc hc'
    omega
  · exact ⟨rfl, Nat.add_left_cancel h⟩
  · have := hkeys hgt hc' hc
    omega

theorem classKey_add_notMem {p : Program ε} {i off : Nat} {c : ClassDecl ε}
    (hc : p.classes[i]? = some c) (hpos : 0 < off) (hoff : off < c.outline.size) :
    p.classKey i + off ∉ p.classKeys := by
  intro hmem
  obtain ⟨j, hj, hkey⟩ := p.mem_classKeys.mp hmem
  have hsize : 0 < (p.classes[j]).outline.size := Nat.succ_pos _
  have hzero := (classKey_add_inj hc (List.getElem?_eq_getElem hj) hoff hsize hkey.symm).2
  omega

end Program

/-- Around the outermost region of an outline there is none, and around the others
there is one that comes before. -/
theorem Outline.outer_of_getElem? {o : Outline} {off : Nat} {r : Region}
    (h : (o.regions none 0)[off]? = some r) :
    r.outer = none ∨ ∃ x, r.outer = some x ∧ x < off := by
  have hmem : (r, off) ∈ placed none 0 [o] := by
    rw [placed, regionsOf, regionsOf, List.append_nil, List.mk_mem_zipIdx_iff_getElem?]
    exact h
  obtain ⟨-, -, hnone | ⟨x, hx, -, hlt⟩⟩ := outer_of_mem_placed _ hmem
  · exact Or.inl hnone
  · exact Or.inr ⟨x, hx, hlt⟩

end IcFront
