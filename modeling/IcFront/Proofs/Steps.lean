import Mathlib.Data.List.Basic

/-!
# Steps that may fail

Laws of `Except`: what must have happened when a sequence of steps gives something,
and when a sequence of steps gives something for sure.
-/

namespace IcFront

variable {ε α β γ : Type}

/-- What a sequence of two steps gives, both must give something for. -/
theorem Except.bind_eq_ok {x : Except ε α} {f : α → Except ε β} {b : β}
    (h : x >>= f = .ok b) : ∃ a, x = .ok a ∧ f a = .ok b := by
  cases x with
  | error e => cases h
  | ok a => exact ⟨a, rfl, h⟩

/-- Steps that all give something give as many things, each as its own step. -/
theorem mapM_ok {f : α → Except ε β} {g : α → β} {P : β → Prop}
    (hf : ∀ a b, f a = .ok b → b = g a ∧ P b) {as : List α} {bs : List β}
    (h : as.mapM f = .ok bs) : bs = as.map g ∧ ∀ b ∈ bs, P b := by
  induction as generalizing bs with
  | nil => cases h; simp
  | cons a as ih =>
    rw [List.mapM_cons] at h
    obtain ⟨b, hb, h⟩ := Except.bind_eq_ok h
    obtain ⟨bs, hbs, h⟩ := Except.bind_eq_ok h
    cases h
    obtain ⟨rfl, pb⟩ := hf a b hb
    obtain ⟨rfl, pbs⟩ := ih hbs
    exact ⟨rfl, by simpa using ⟨pb, by simpa using pbs⟩⟩

/-- Steps that each give something give all of it, in order. -/
theorem mapM_eq_ok {f : β → Except ε γ} {g : α → β} {h : α → γ} {as : List α}
    (hf : ∀ a ∈ as, f (g a) = .ok (h a)) : (as.map g).mapM f = .ok (as.map h) := by
  induction as with
  | nil => rfl
  | cons a as ih =>
    rw [List.map_cons, List.mapM_cons, hf a List.mem_cons_self,
      ih fun b hb => hf b (List.mem_cons_of_mem _ hb)]
    rfl

theorem mapM_eq_map {f : β → Except ε γ} {h : β → γ} {as : List β}
    (hf : ∀ a ∈ as, f a = .ok (h a)) : as.mapM f = .ok (as.map h) := by
  have hall := mapM_eq_ok (g := fun a => a) hf
  rwa [List.map_id'] at hall

/-- Steps that give the same wherever they give something. -/
theorem mapM_ok_imp {f g : α → Except ε β} (h : ∀ a b, f a = .ok b → g a = .ok b) {as : List α}
    {bs : List β} (hf : as.mapM f = .ok bs) : as.mapM g = .ok bs := by
  induction as generalizing bs with
  | nil => exact hf
  | cons a as ih =>
    rw [List.mapM_cons] at hf ⊢
    obtain ⟨b, hb, hf⟩ := Except.bind_eq_ok hf
    obtain ⟨bs, hbs, hf⟩ := Except.bind_eq_ok hf
    rw [h a b hb, ih hbs]
    exact hf

/-- A fold over steps that give something is a fold over what they give. -/
theorem foldl_of_foldlM_ok {f : β → α → Except ε β} {g : β → α → β}
    (h : ∀ b a b', f b a = .ok b' → g b a = b') {as : List α} {b b' : β}
    (hf : as.foldlM f b = .ok b') : as.foldl g b = b' := by
  induction as generalizing b with
  | nil =>
    cases hf
    rfl
  | cons a as ih =>
    rw [List.foldlM_cons] at hf
    obtain ⟨mid, hmid, hf⟩ := Except.bind_eq_ok hf
    rw [List.foldl_cons, h b a mid hmid]
    exact ih hf

/-- Steps of two kinds that each give the same together give the same. -/
theorem exists_mapM_ok_both {δ : Type} {f : α → Except ε β} {g : α → Except δ β} {as : List α}
    (h : ∀ a ∈ as, ∃ b, f a = .ok b ∧ g a = .ok b) :
    ∃ bs, as.mapM f = .ok bs ∧ as.mapM g = .ok bs := by
  induction as with
  | nil => exact ⟨[], rfl, rfl⟩
  | cons a as ih =>
    obtain ⟨b, hf, hg⟩ := h a List.mem_cons_self
    obtain ⟨bs, hfs, hgs⟩ := ih fun a ha => h a (List.mem_cons_of_mem _ ha)
    refine ⟨b :: bs, ?_, ?_⟩
    · rw [List.mapM_cons, hf, hfs]
      rfl
    · rw [List.mapM_cons, hg, hgs]
      rfl

/-- Steps that each give something together give something. -/
theorem exists_mapM_ok {f : α → Except ε β} {as : List α} (h : ∀ a ∈ as, ∃ b, f a = .ok b) :
    ∃ bs, as.mapM f = .ok bs := by
  obtain ⟨bs, hbs, -⟩ := exists_mapM_ok_both fun a ha => (h a ha).imp fun _ hb => ⟨hb, hb⟩
  exact ⟨bs, hbs⟩

end IcFront
