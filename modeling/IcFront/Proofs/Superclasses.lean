import IcFront.Proofs.Chain
import IcFront.Proofs.Outline
import IcFront.Tables.Diagnostic
import Mathlib.Data.Finset.Max

/-!
# Classes and the classes they extend

The graph that has one edge from each class to the class that it extends
(`Program.superclass?`), read off a program alone. A name denotes the first class
declared under it, so every class has at most one edge, and classes can be
anywhere: on a cycle, hanging off one, or on a way that ends.

Edges are accepted in the order of declaration, and refused to the last class of
each cycle (`LastOnCycle`). A refusal can be told from the edges accepted before:
the class can be reached from its superclass already (`reaches_iff_lastOnCycle`).
-/

namespace IcFront

variable {ε : Type} {next : Nat → Option Nat}

/-- Whether an error is about the superclass of a class. -/
def SemanticError.isLinkage : SemanticError → Bool
  | unresolvedSuperclass .. | cyclicInheritance .. => true
  | _ => false

/-! ## The last class of a cycle -/

/-- Whether a key lies on a cycle that has no later key. -/
def LastOnCycle (next : Nat → Option Nat) (i : Nat) : Prop :=
  Relation.TransGen (Leads next) i i ∧
    ∀ j, Relation.TransGen (Leads next) i j → Relation.TransGen (Leads next) j i → j ≤ i

/-- Every cycle has exactly one last key. -/
theorem existsUnique_lastOnCycle {n : Nat} (hnext : ∀ x y, next x = some y → y < n) {i : Nat}
    (hi : Relation.TransGen (Leads next) i i) :
    ∃! k, (Relation.TransGen (Leads next) i k ∧ Relation.TransGen (Leads next) k i) ∧
      LastOnCycle next k := by
  classical
  have hlt : ∀ k, Relation.TransGen (Leads next) i k → k < n := by
    intro k hk
    obtain ⟨j, _, hjk⟩ := Relation.TransGen.tail'_iff.mp hk
    exact hnext j k hjk
  -- The keys of the cycle are all below `n`, so there is a greatest one.
  obtain ⟨k, hk, hmax⟩ := ((Finset.range n).filter fun k =>
      Relation.TransGen (Leads next) i k ∧ Relation.TransGen (Leads next) k i).exists_max_image id
    ⟨i, Finset.mem_filter.mpr ⟨Finset.mem_range.mpr (hlt i hi), hi, hi⟩⟩
  obtain ⟨_, hik, hki⟩ := Finset.mem_filter.mp hk
  refine ⟨k, ⟨⟨hik, hki⟩, hki.trans hik, fun j hkj hjk => ?_⟩, ?_⟩
  · have hij := hik.trans hkj
    exact hmax j (Finset.mem_filter.mpr ⟨Finset.mem_range.mpr (hlt j hij), hij, hjk.trans hki⟩)
  · intro j hj
    obtain ⟨⟨hij, hji⟩, _, hlast⟩ := hj
    have hjk : j ≤ k :=
      hmax j (Finset.mem_filter.mpr ⟨Finset.mem_range.mpr (hlt j hij), hij, hji⟩)
    exact le_antisymm hjk (hlast k (hji.trans hik) (hki.trans hij))

/-! ## Accepted edges -/

section Accepted

variable [DecidablePred (LastOnCycle next)]

/-- The edges accepted: those of keys that are not the last of a cycle. -/
def accepted (next : Nat → Option Nat) [DecidablePred (LastOnCycle next)] (x : Nat) : Option Nat :=
  if LastOnCycle next x then none else next x

/-- The edges accepted of the keys before a key. -/
def acceptedBefore (next : Nat → Option Nat) [DecidablePred (LastOnCycle next)] (i x : Nat) :
    Option Nat :=
  if x < i then accepted next x else none

theorem acceptedBefore_eq_some {i x y : Nat} :
    acceptedBefore next i x = some y ↔ x < i ∧ ¬ LastOnCycle next x ∧ next x = some y := by
  unfold acceptedBefore accepted
  by_cases hx : x < i
  · by_cases hlast : LastOnCycle next x
    · simp [hlast]
    · simp [hx, hlast]
  · simp [hx]

/-- From a key that is reached no later key is left, so that a way to the key has
all keys of its cycle on it. -/
theorem le_of_reaches {i x : Nat}
    (h : Relation.ReflTransGen (Leads (acceptedBefore next i)) x i) : x ≤ i := by
  rcases Relation.ReflTransGen.cases_head h with rfl | ⟨y, hxy, _⟩
  · exact le_refl x
  · exact (acceptedBefore_eq_some.mp hxy).1.le

/-- What leads to a key by edges accepted before it, and the key itself, is left
for more of the same only. -/
theorem reaches_of_step {i j x y : Nat} (hij : next i = some j)
    (hj : Relation.ReflTransGen (Leads (acceptedBefore next i)) j i)
    (hx : Relation.ReflTransGen (Leads (acceptedBefore next i)) x i) (hxy : next x = some y) :
    Relation.ReflTransGen (Leads (acceptedBefore next i)) y i := by
  rcases Relation.ReflTransGen.cases_head hx with rfl | ⟨z, hxz, hz⟩
  · obtain rfl := Option.some.inj (hij.symm.trans hxy)
    exact hj
  · obtain rfl := Option.some.inj ((acceptedBefore_eq_some.mp hxz).2.2.symm.trans hxy)
    exact hz

/-- All of a cycle but its last key is accepted when its last key is reached. -/
theorem reaches_of_lastOnCycle {i x : Nat} (hlast : LastOnCycle next i)
    (hix : Relation.TransGen (Leads next) i x) (hxi : Relation.ReflTransGen (Leads next) x i) :
    Relation.ReflTransGen (Leads (acceptedBefore next i)) x i := by
  induction hxi using Relation.ReflTransGen.head_induction_on with
  | refl => exact .refl
  | @head x y hxy hyi ih =>
    by_cases hne : x = i
    · exact hne ▸ .refl
    · -- Any other key of the cycle comes before `i`, and so is not the last itself.
      have hxi : Relation.TransGen (Leads next) x i := Relation.TransGen.head' hxy hyi
      have hlt : x < i := lt_of_le_of_ne (hlast.2 x hix hxi) hne
      have hnot : ¬ LastOnCycle next x := fun h => absurd (h.2 i hxi hix) (not_le.mpr hlt)
      exact .head (acceptedBefore_eq_some.mpr ⟨hlt, hnot, hxy⟩) (ih (hix.tail hxy))

/-- An edge closes a cycle of edges accepted before exactly if it belongs to the last
key of a cycle. -/
theorem reaches_iff_lastOnCycle {i j : Nat} (hij : next i = some j) :
    Relation.ReflTransGen (Leads (acceptedBefore next i)) j i ↔ LastOnCycle next i := by
  constructor
  · intro hj
    have hji : Relation.ReflTransGen (Leads next) j i :=
      Relation.ReflTransGen.mono (fun _ _ hxy => (acceptedBefore_eq_some.mp hxy).2.2) j i hj
    refine ⟨Relation.TransGen.head' hij hji, fun k hik hki => ?_⟩
    clear hki
    -- The keys from which accepted edges lead to `i` are closed under all edges.
    have hk : Relation.ReflTransGen (Leads (acceptedBefore next i)) k i := by
      induction hik with
      | single hstep => exact reaches_of_step hij hj .refl hstep
      | tail _ hstep ih => exact reaches_of_step hij hj ih hstep
    exact le_of_reaches hk
  · intro hlast
    obtain ⟨k, hik, hki⟩ := Relation.TransGen.head'_iff.mp hlast.1
    obtain rfl := Option.some.inj (hij.symm.trans hik)
    exact reaches_of_lastOnCycle hlast (.single hij) hki

end Accepted

/-! ## The classes of a program -/

namespace Program

/-- The position of the class that a name denotes, the first one declared under it. -/
def denoted? (p : Program ε) (className : String) : Option Nat :=
  p.declared.findIdx? (· == className)

/-- The position of the class that the class at a position extends. -/
def superclass? (p : Program ε) (i : Nat) : Option Nat :=
  (p.classes[i]?.bind (·.superclass)).bind p.denoted?

theorem denoted?_lt {p : Program ε} {className : String} {j : Nat}
    (h : p.denoted? className = some j) : j < p.classes.length := by
  have hlt := (List.findIdx?_eq_some_iff_findIdx_eq.mp h).1
  rwa [declared, List.length_map] at hlt

theorem superclass?_lt (p : Program ε) (i j : Nat) (h : p.superclass? i = some j) :
    j < p.classes.length := by
  obtain ⟨className, _, hj⟩ := Option.bind_eq_some_iff.mp h
  exact denoted?_lt hj

theorem denoted?_eq_none_iff (p : Program ε) (className : String) :
    p.denoted? className = none ↔ className ∉ p.declared := by
  rw [denoted?, List.findIdx?_eq_none_iff]
  constructor
  · intro h hmem
    exact absurd (h className hmem) (by simp)
  · intro h x hx
    rw [beq_eq_false_iff_ne]
    intro heq
    subst heq
    exact h hx

/-- Whether a class is the last of a cycle can be found out by following as many
edges as there are classes. -/
instance (p : Program ε) : DecidablePred (LastOnCycle p.superclass?) := fun i =>
  decidable_of_iff
    (i ∈ chain p.superclass? p.classes.length i ∧
      ∀ j ∈ chain p.superclass? p.classes.length i,
        i ∈ chain p.superclass? p.classes.length j → j ≤ i)
    (by simp only [LastOnCycle, mem_chain_iff_transGen p.superclass?_lt])

/-- What is wrong with the superclass of the class at a position. -/
def linkFault (p : Program ε) (i : Nat) : Option Diagnostic :=
  p.classes[i]?.bind fun c => c.superclass.bind fun superclass =>
    if p.denoted? superclass = none then
      some ⟨.unresolvedSuperclass c.name superclass, c.line⟩
    else if LastOnCycle p.superclass? i then
      some ⟨.cyclicInheritance c.name superclass, c.line⟩
    else none

section LinkFault

variable {p : Program ε} {i : Nat} {c : ClassDecl ε} {superclass : String}

theorem superclass?_eq (hc : p.classes[i]? = some c) (hs : c.superclass = some superclass) :
    p.superclass? i = p.denoted? superclass := by
  rw [Program.superclass?, hc, Option.bind_some, hs, Option.bind_some]

theorem linkFault_eq (hc : p.classes[i]? = some c) (hs : c.superclass = some superclass) :
    p.linkFault i =
      if p.denoted? superclass = none then
        some ⟨.unresolvedSuperclass c.name superclass, c.line⟩
      else if LastOnCycle p.superclass? i then
        some ⟨.cyclicInheritance c.name superclass, c.line⟩
      else none := by
  rw [linkFault, hc, Option.bind_some, hs, Option.bind_some]

theorem linkFault_eq_none (hc : p.classes[i]? = some c) (hs : c.superclass = none) :
    p.linkFault i = none := by
  rw [linkFault, hc, Option.bind_some, hs, Option.bind_none]

/-- What is wrong with a superclass is one of the two faults of linking. -/
theorem linkFault_isLinkage {d : Diagnostic} (h : p.linkFault i = some d) :
    d.error.isLinkage = true := by
  obtain ⟨c, hc, h⟩ := Option.bind_eq_some_iff.mp h
  obtain ⟨superclass, hs, h⟩ := Option.bind_eq_some_iff.mp h
  split at h
  next =>
    obtain rfl := Option.some.inj h
    rfl
  next =>
    split at h
    next =>
      obtain rfl := Option.some.inj h
      rfl
    next => exact absurd h (by simp)

theorem linkFault_unresolved_iff (hc : p.classes[i]? = some c)
    (hs : c.superclass = some superclass) :
    p.linkFault i = some ⟨.unresolvedSuperclass c.name superclass, c.line⟩ ↔
      superclass ∉ p.declared := by
  rw [linkFault_eq hc hs, ← denoted?_eq_none_iff]
  by_cases hnone : p.denoted? superclass = none
  · simp [hnone]
  · rw [if_neg hnone]
    by_cases hlast : LastOnCycle p.superclass? i <;> simp [hnone, hlast]

theorem linkFault_cyclic_iff (hc : p.classes[i]? = some c)
    (hs : c.superclass = some superclass) :
    p.linkFault i = some ⟨.cyclicInheritance c.name superclass, c.line⟩ ↔
      LastOnCycle p.superclass? i := by
  rw [linkFault_eq hc hs]
  by_cases hnone : p.denoted? superclass = none
  · have hnot : ¬ LastOnCycle p.superclass? i := by
      intro hlast
      obtain ⟨j, hj, _⟩ := Relation.TransGen.head'_iff.mp hlast.1
      rw [Leads, superclass?_eq hc hs, hnone] at hj
      exact absurd hj (by simp)
    simp [hnone, hnot]
  · rw [if_neg hnone]
    by_cases hlast : LastOnCycle p.superclass? i <;> simp [hlast]

end LinkFault

end Program

end IcFront
