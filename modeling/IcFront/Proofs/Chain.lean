import Mathlib.Data.Finset.Card
import Mathlib.Data.Finset.Image
import Mathlib.Logic.Relation
import Mathlib.Order.Interval.Finset.Nat

/-!
# Chains of a partial function

Parents of scopes and superclasses of classes are both partial functions on
keys. `follow next m x` is the key `m` steps after `x`, and `chain next n x`
lists the first `n` keys after `x`.

If every key that has a predecessor is below `n`, then the first `n` steps see
all that there is to see, whether the function has cycles or not
(`mem_chain_iff_transGen`): two equal keys among the first `n + 1` steps could be
cut out of a shortest way. Without cycles the chain even ends
(`follow_eq_none_of_acyclic`), so that a longer search finds the same chain.
-/

namespace IcFront

variable {next : Nat → Option Nat}

/-- The key `m` steps after a key. -/
def follow (next : Nat → Option Nat) : (m : Nat) → (x : Nat) → Option Nat
  | 0, x => some x
  | m + 1, x => (next x).bind (follow next m)

/-- The first `n` keys after a key, the nearest first. -/
def chain (next : Nat → Option Nat) : (n : Nat) → (x : Nat) → List Nat
  | 0, _ => []
  | n + 1, x =>
    match next x with
    | none => []
    | some y => y :: chain next n y

/-- One step of a partial function. -/
def Leads (next : Nat → Option Nat) (x y : Nat) : Prop := next x = some y

/-- No key comes after itself. -/
def Acyclic (next : Nat → Option Nat) : Prop := ∀ x, ¬ Relation.TransGen (Leads next) x x

/-! ## Following -/

@[simp] theorem follow_zero (x : Nat) : follow next 0 x = some x := rfl

theorem follow_succ (m x : Nat) : follow next (m + 1) x = (next x).bind (follow next m) := rfl

theorem follow_add (m k x : Nat) :
    follow next (m + k) x = (follow next m x).bind (follow next k) := by
  induction m generalizing x with
  | zero => rw [Nat.zero_add, follow_zero, Option.bind_some]
  | succ m ih =>
    rw [Nat.succ_add, follow_succ, follow_succ]
    cases h : next x with
    | none => rfl
    | some y => rw [Option.bind_some, Option.bind_some, ih]

/-- The last step of a way, taken apart from those before it. -/
theorem follow_succ_eq_some {m x y : Nat} :
    follow next (m + 1) x = some y ↔ ∃ z, follow next m x = some z ∧ next z = some y := by
  rw [follow_add, Option.bind_eq_some_iff]
  refine exists_congr fun z => and_congr_right fun _ => ?_
  rw [follow_succ]
  cases next z <;> rfl

/-- A way that has not ended after `m` steps had not ended before. -/
theorem follow_of_le {m k x y : Nat} (h : follow next m x = some y) (hk : k ≤ m) :
    ∃ z, follow next k x = some z ∧ follow next (m - k) z = some y := by
  have hsplit := @follow_add next k (m - k) x
  rw [Nat.add_sub_cancel' hk, h] at hsplit
  cases hz : follow next k x with
  | none => rw [hz] at hsplit; exact absurd hsplit (by simp)
  | some z =>
    rw [hz, Option.bind_some] at hsplit
    exact ⟨z, rfl, hsplit.symm⟩

theorem reflTransGen_iff_follow {x y : Nat} :
    Relation.ReflTransGen (Leads next) x y ↔ ∃ m, follow next m x = some y := by
  constructor
  · intro h
    induction h using Relation.ReflTransGen.head_induction_on with
    | refl => exact ⟨0, rfl⟩
    | head hstep _ ih =>
      obtain ⟨m, hm⟩ := ih
      exact ⟨m + 1, by rw [follow_succ, show next _ = some _ from hstep, Option.bind_some, hm]⟩
  · intro hex
    obtain ⟨m, hm⟩ := hex
    induction m generalizing x with
    | zero =>
      obtain rfl := Option.some.inj hm
      exact .refl
    | succ m ih =>
      obtain ⟨z, hz, hrest⟩ := Option.bind_eq_some_iff.mp hm
      exact .head hz (ih hrest)

theorem transGen_iff_follow {x y : Nat} :
    Relation.TransGen (Leads next) x y ↔ ∃ m, 0 < m ∧ follow next m x = some y := by
  rw [Relation.TransGen.head'_iff]
  constructor
  · intro hex
    obtain ⟨z, hz, hrest⟩ := hex
    obtain ⟨m, hm⟩ := reflTransGen_iff_follow.mp hrest
    exact ⟨m + 1, Nat.succ_pos m, by
      rw [follow_succ, show next x = some z from hz, Option.bind_some, hm]⟩
  · intro hex
    obtain ⟨m, hpos, hm⟩ := hex
    obtain ⟨k, rfl⟩ : ∃ k, m = k + 1 := ⟨m - 1, by omega⟩
    obtain ⟨z, hz, hrest⟩ := Option.bind_eq_some_iff.mp hm
    exact ⟨z, hz, reflTransGen_iff_follow.mpr ⟨k, hrest⟩⟩

theorem mem_chain_iff {n x y : Nat} :
    y ∈ chain next n x ↔ ∃ m, 0 < m ∧ m ≤ n ∧ follow next m x = some y := by
  induction n generalizing x with
  | zero =>
    simp only [chain, List.not_mem_nil, false_iff]
    intro hex
    obtain ⟨m, hpos, hle, _⟩ := hex
    omega
  | succ n ih =>
    rw [chain]
    cases hx : next x with
    | none =>
      simp only [List.not_mem_nil, false_iff]
      intro hex
      obtain ⟨m, hpos, _, hm⟩ := hex
      obtain ⟨k, rfl⟩ : ∃ k, m = k + 1 := ⟨m - 1, by omega⟩
      rw [follow_succ, hx] at hm
      exact absurd hm (by simp)
    | some z =>
      simp only [List.mem_cons, ih]
      constructor
      · intro hor
        rcases hor with rfl | ⟨m, _, hle, hm⟩
        · exact ⟨1, Nat.one_pos, by omega, by rw [follow_succ, hx]; rfl⟩
        · exact ⟨m + 1, Nat.succ_pos m, by omega, by rw [follow_succ, hx]; exact hm⟩
      · intro hex
        obtain ⟨m, hpos, hle, hm⟩ := hex
        obtain ⟨k, rfl⟩ : ∃ k, m = k + 1 := ⟨m - 1, by omega⟩
        rw [follow_succ, hx, Option.bind_some] at hm
        rcases Nat.eq_zero_or_pos k with rfl | hk
        · exact Or.inl (Option.some.inj hm).symm
        · exact Or.inr ⟨k, hk, by omega, hm⟩

/-! ## Searches that are long enough -/

/-- A step whose targets are all below `n` leaves the first `m` keys after a key
below `n`. -/
theorem follow_lt {n : Nat} (hnext : ∀ x y, next x = some y → y < n) {m x y : Nat}
    (hpos : 0 < m) (h : follow next m x = some y) : y < n := by
  obtain ⟨z, _, hz⟩ := follow_of_le h (Nat.sub_le m 1)
  rw [show m - (m - 1) = 1 from by omega, follow_succ] at hz
  obtain ⟨w, hw, he⟩ := Option.bind_eq_some_iff.mp hz
  obtain rfl := Option.some.inj he
  exact hnext z w hw

/-- Pairwise different keys below `n` on a way are no more than `n`. -/
theorem card_steps_le {n lo m x y : Nat} (h : follow next m x = some y)
    (hlt : ∀ a z, lo ≤ a → follow next a x = some z → z < n)
    (hinj : ∀ a b, lo ≤ a → a < b → b ≤ m → follow next a x ≠ follow next b x) :
    m + 1 - lo ≤ n := by
  have hcard : (Finset.Icc lo m).card ≤ ((Finset.range n).image some).card := by
    apply Finset.card_le_card_of_injOn (fun a => follow next a x)
    · intro a ha
      rw [Finset.mem_coe, Finset.mem_Icc] at ha
      obtain ⟨z, hz, _⟩ := follow_of_le h ha.2
      simp only [Finset.coe_image, Set.mem_image, Finset.mem_coe, Finset.mem_range]
      exact ⟨z, hlt a z ha.1 hz, hz.symm⟩
    · intro a ha b hb hab
      rw [Finset.mem_coe, Finset.mem_Icc] at ha hb
      rcases Nat.lt_trichotomy a b with hl | heq | hg
      · exact absurd hab (hinj a b ha.1 hl hb.2)
      · exact heq
      · exact absurd hab.symm (hinj b a hb.1 hg ha.2)
  rwa [Nat.card_Icc, Finset.card_image_of_injective _ (Option.some_injective _),
    Finset.card_range] at hcard

/-- A key that can be reached at all is among the first `n`. -/
theorem mem_chain_iff_transGen {n : Nat} (hnext : ∀ x y, next x = some y → y < n) {x y : Nat} :
    y ∈ chain next n x ↔ Relation.TransGen (Leads next) x y := by
  rw [mem_chain_iff, transGen_iff_follow]
  constructor
  · intro hex
    obtain ⟨m, hpos, _, hm⟩ := hex
    exact ⟨m, hpos, hm⟩
  · intro hex
    classical
    obtain ⟨hpos, hm⟩ := Nat.find_spec hex
    have hle : Nat.find hex + 1 - 1 ≤ n := by
      refine card_steps_le hm (fun a z ha hz => follow_lt hnext ha hz)
        fun a b ha hab hb heq => ?_
      -- A key met twice shortens the way by what lies between.
      obtain ⟨z, hz, hrest⟩ := follow_of_le hm hb
      have hshort : follow next (a + (Nat.find hex - b)) x = some y := by
        rw [follow_add, heq, hz, Option.bind_some, hrest]
      exact Nat.find_min hex (by omega) ⟨by omega, hshort⟩
    exact ⟨Nat.find hex, hpos, by omega, hm⟩

/-! ## Functions without cycles -/

theorem acyclic_of_lt (h : ∀ x y, next x = some y → y < x) : Acyclic next := by
  have hlt : ∀ x y, Relation.TransGen (Leads next) x y → y < x := by
    intro x y hxy
    induction hxy with
    | single hstep => exact h _ _ hstep
    | tail _ hstep ih => exact (h _ _ hstep).trans ih
  intro x hx
  exact absurd (hlt x x hx) (lt_irrefl x)

/-- On a way that ends there is no cycle. -/
theorem not_transGen_self_of_ends {x y : Nat} (h : Relation.ReflTransGen (Leads next) x y)
    (hy : next y = none) : ¬ Relation.TransGen (Leads next) x x := by
  induction h using Relation.ReflTransGen.head_induction_on with
  | refl =>
    intro hcycle
    obtain ⟨z, hz, _⟩ := Relation.TransGen.head'_iff.mp hcycle
    exact absurd (hy.symm.trans hz) (by simp)
  | head hstep _ ih =>
    intro hcycle
    obtain ⟨z, hz, hback⟩ := Relation.TransGen.head'_iff.mp hcycle
    obtain rfl := Option.some.inj (hstep.symm.trans hz)
    exact ih (Relation.TransGen.tail' hback hstep)

/-- A key may be led to another from which there is no way back to it. -/
theorem acyclic_of_redirect {next' : Nat → Option Nat} {c p : Nat} (hac : Acyclic next)
    (hc : next' c = some p) (hother : ∀ x, x ≠ c → next' x = next x)
    (hp : ¬ Relation.ReflTransGen (Leads next) p c) : Acyclic next' := by
  -- A way is an old one, or it goes by the new step: to `c`, and on from `p`.
  have hway : ∀ x y, Relation.TransGen (Leads next') x y → Relation.TransGen (Leads next) x y ∨
      (Relation.ReflTransGen (Leads next) x c ∧ Relation.ReflTransGen (Leads next) p y) := by
    intro x y hxy
    induction hxy with
    | @single y hstep =>
      by_cases hx : x = c
      · subst hx
        obtain rfl := Option.some.inj (hc.symm.trans hstep)
        exact Or.inr ⟨.refl, .refl⟩
      · exact Or.inl (.single ((hother x hx).symm.trans hstep))
    | @tail y z _ hstep ih =>
      by_cases hy : y = c
      · subst hy
        obtain rfl := Option.some.inj (hc.symm.trans hstep)
        rcases ih with hold | ⟨hxc, _⟩
        · exact Or.inr ⟨hold.to_reflTransGen, .refl⟩
        · exact Or.inr ⟨hxc, .refl⟩
      · have hnext : Leads next y z := (hother y hy).symm.trans hstep
        rcases ih with hold | ⟨hxc, hpy⟩
        · exact Or.inl (hold.tail hnext)
        · exact Or.inr ⟨hxc, hpy.tail hnext⟩
  intro x hx
  rcases hway x x hx with hold | ⟨hxc, hpx⟩
  · exact hac x hold
  · exact hp (hpx.trans hxc)

/-- Without cycles a way ends within `n` steps. -/
theorem follow_eq_none_of_acyclic {n : Nat} (hnext : ∀ x y, next x = some y → y < n)
    (hac : Acyclic next) {x : Nat} (hx : x < n) : follow next n x = none := by
  cases h : follow next n x with
  | none => rfl
  | some y =>
    exfalso
    have hlt : ∀ a z, 0 ≤ a → follow next a x = some z → z < n := by
      intro a z _ hz
      rcases Nat.eq_zero_or_pos a with rfl | hpos
      · exact (Option.some.inj hz) ▸ hx
      · exact follow_lt hnext hpos hz
    -- Such a way has `n + 1` keys below `n`, and a key met twice is on a cycle.
    have hle : n + 1 - 0 ≤ n := by
      refine card_steps_le h hlt fun a b _ hab hb heq => ?_
      obtain ⟨z, hz, _⟩ := follow_of_le h hb
      obtain ⟨w, hw, hwz⟩ := follow_of_le hz hab.le
      obtain rfl : w = z := Option.some.inj (hw.symm.trans (heq.trans hz))
      exact hac w (transGen_iff_follow.mpr ⟨b - a, by omega, hwz⟩)
    omega

/-- A way that ends has a last key. -/
theorem exists_end_of_follow_eq_none {n x : Nat} (h : follow next n x = none) :
    ∃ y, Relation.ReflTransGen (Leads next) x y ∧ next y = none := by
  induction n generalizing x with
  | zero => exact absurd h (by simp)
  | succ n ih =>
    cases hx : next x with
    | none => exact ⟨x, .refl, hx⟩
    | some z =>
      rw [follow_succ, hx, Option.bind_some] at h
      obtain ⟨y, hzy, hy⟩ := ih h
      exact ⟨y, .head hx hzy, hy⟩

/-- A search that goes on after the end of the chain finds nothing more. -/
theorem chain_of_follow_eq_none {n m x : Nat} (h : follow next n x = none) (hm : n ≤ m) :
    chain next m x = chain next n x := by
  induction n generalizing x m with
  | zero => exact absurd h (by simp)
  | succ n ih =>
    obtain ⟨k, rfl⟩ : ∃ k, m = k + 1 := ⟨m - 1, by omega⟩
    rw [chain, chain]
    cases hx : next x with
    | none => rfl
    | some y =>
      rw [follow_succ, hx, Option.bind_some] at h
      exact congrArg (y :: ·) (ih h (by omega))

end IcFront
