import IcFront.Library.Signature
import IcFront.Proofs.Outline

/-!
# Library classes

What is known of every class that `loadLibrary` gives (`loadLibrary_ok`): its name, and
that it has methods without bodies only. Any other class is refused (`libraryOf_iff`). So it
has one scope of its own, and one for each method, with nothing in it but the formal
parameters (`Outline.regionsOf_of_isLibrary`, `ClassDecl.IsLibrary.size_outline`).
-/

namespace IcFront

variable {path text : String} {p : Program Expr} {c : ClassDecl Expr}

/-- A class that may be a library: it extends none, and has library methods only. -/
structure ClassDecl.IsLibrary (c : ClassDecl Expr) : Prop where
  name : c.name = libraryName
  superclass : c.superclass = none
  fields : c.fields = []
  methods : ∀ m ∈ c.methods, m.isLibrary = true

theorem libraryOf_ok (h : libraryOf path p = .ok c) : p.classes = [c] ∧ c.IsLibrary := by
  unfold libraryOf at h
  split at h
  next c' hclasses =>
    split at h
    next => cases h
    next hname =>
      split at h
      next => cases h
      next hmembers =>
        split at h
        next => cases h
        next hbodies =>
          cases h
          rw [Bool.or_eq_true, not_or, Option.not_isSome_iff_eq_none, Bool.not_eq_true',
            Bool.not_eq_false, List.isEmpty_iff] at hmembers
          refine ⟨hclasses, Decidable.not_not.mp hname, hmembers.1, hmembers.2, fun m hm => ?_⟩
          have hbody := List.find?_eq_none.mp hbodies m hm
          rwa [Bool.not_eq_true', Bool.not_eq_false] at hbody
  next => cases h

theorem libraryOf_iff : libraryOf path p = .ok c ↔ p.classes = [c] ∧ c.IsLibrary := by
  refine ⟨libraryOf_ok, fun ⟨hclasses, hc⟩ => ?_⟩
  have hbodies : c.methods.find? (fun m => !m.isLibrary) = none := by
    refine List.find?_eq_none.mpr fun m hm => ?_
    rw [hc.methods m hm]
    exact Bool.false_ne_true
  rw [libraryOf, hclasses]
  simp only [hc.name, hc.superclass, hc.fields, hbodies]
  rfl

theorem loadLibrary_ok (h : loadLibrary path text = .ok c) : c.IsLibrary := by
  unfold loadLibrary at h
  split at h
  next => exact (libraryOf_ok h).2
  next => cases h

/-- A library method has parameters, and no blocks. -/
theorem Method.outline_of_isLibrary {m : Method Expr} (h : m.isLibrary = true) :
    m.outline = .region .method m.name (m.formals.map Formal.declaration) [] := by
  unfold isLibrary at h
  split at h
  next hform =>
    rw [outline, hform]
    exact congrArg (Outline.region .method m.name · []) (List.append_nil _)
  next => cases h

theorem Method.size_outline_of_isLibrary {m : Method Expr} (h : m.isLibrary = true) :
    m.outline.size = 1 := by
  rw [m.outline_of_isLibrary h]
  rfl

section Methods

variable {ms : List (Method Expr)} (h : ∀ m ∈ ms, m.isLibrary = true) (key : Nat)
include h

theorem Outline.sizes_of_isLibrary : sizes (ms.map Method.outline) = ms.length := by
  induction ms with
  | nil => rfl
  | cons m ms ih =>
    rw [List.map_cons, sizes, m.size_outline_of_isLibrary (h m List.mem_cons_self),
      ih fun m' hm' => h m' (List.mem_cons_of_mem _ hm'), List.length_cons, Nat.add_comm]

/-- The scopes of library methods come one after the other. -/
theorem Outline.keys_of_isLibrary :
    keys key (ms.map Method.outline) = List.range' key ms.length := by
  induction ms generalizing key with
  | nil => rfl
  | cons m ms ih =>
    rw [List.map_cons, keys, m.size_outline_of_isLibrary (h m List.mem_cons_self),
      ih fun m' hm' => h m' (List.mem_cons_of_mem _ hm')]
    rfl

theorem Outline.regionsOf_of_isLibrary (outer : Option Nat) :
    regionsOf outer key (ms.map Method.outline) = ms.map fun m =>
      ⟨.method, m.name, m.formals.map Formal.declaration, outer, []⟩ := by
  induction ms generalizing key with
  | nil => rfl
  | cons m ms ih =>
    rw [List.map_cons, regionsOf, m.outline_of_isLibrary (h m List.mem_cons_self),
      ih fun m' hm' => h m' (List.mem_cons_of_mem _ hm')]
    rfl

end Methods

theorem ClassDecl.IsLibrary.size_outline (h : c.IsLibrary) :
    c.outline.size = 1 + c.methods.length := by
  rw [outline, Outline.size, Outline.sizes_of_isLibrary h.methods, Nat.add_comm]

end IcFront
