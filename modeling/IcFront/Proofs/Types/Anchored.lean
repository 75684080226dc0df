import IcFront.Proofs.Tables.Asked
import IcFront.Proofs.Types.Unambiguous

/-!
# Types made of what a search finds

A class name means the first class of that name, and a structural type is there once. So
whatever a table is asked for, all types that it adds are made of types that a search finds
(`Anchored`), also if several classes have one name. That takes questions in the right
order: a method may be asked for once the types in its signature are known to be there
(`Prepared`). A program asks in this order (`Program.prepared_asks`).
-/

namespace IcFront

variable {ε : Type} {declared : List String}

namespace TypeTable

open Draft

variable {t t' : TypeTable} {e : TypeEntry} {id base : Int} {type : TypeRef}

/-- The types of a table are made of what a search finds. -/
def Anchored (t : TypeTable) : Prop := ∀ e ∈ t.entries, ∀ part : Int, part ∈ e.parts → t.First part

/-! ## Ids that a search finds -/

theorem First.of_isPrefix (h : t.First id) (hp : t.entries <+: t'.entries) : t'.First id := by
  obtain ⟨e, he⟩ := h
  exact ⟨e, find?_of_isPrefix hp he⟩

theorem isPrefix_intern (t : TypeTable) (e : TypeEntry) : t.entries <+: (t.intern e).1.entries := by
  unfold intern
  split
  next => exact List.prefix_refl _
  next => exact List.prefix_append _ _

theorem first_intern (t : TypeTable) (e : TypeEntry) : (t.intern e).1.First (t.intern e).2 :=
  ⟨e, find?_intern t e⟩

theorem first_base (hbase : t.base? type.base = some base) : t.First base := by
  cases hb : type.base with
  | primitive p => exact ⟨_, hb ▸ hbase⟩
  | user className => exact ⟨_, hb ▸ hbase⟩

/-- The id of a type as written is one that a search finds. -/
theorem first_idOf (h : t.Holds (t.idOf type)) : t.First (t.idOf type) := by
  obtain ⟨base, hbase, hid⟩ := h.bracketed
  generalize type.dimension.toNat = n at hid
  cases n with
  | zero => exact Option.some.inj hid ▸ first_base hbase
  | succ n =>
    rw [bracketed?_succ] at hid
    obtain ⟨element, -, harray⟩ := Option.bind_eq_some_iff.mp hid
    exact ⟨_, harray⟩

/-! ## Questions -/

/-- A type may be added once a search finds its parts. -/
theorem Anchored.intern (h : t.Anchored) (hparts : ∀ part : Int, part ∈ e.parts → t.First part) :
    (t.intern e).1.Anchored := by
  intro x hx part hpart
  have hfirst : t.First part := by
    rcases mem_entries_intern hx with hold | rfl
    · exact h x hold part hpart
    · exact hparts part hpart
  exact hfirst.of_isPrefix (t.isPrefix_intern e)

theorem Anchored.withBrackets (h : t.Anchored) (hid : t.First id) (n : Nat) :
    (withBrackets t id n).1.Anchored := by
  induction n generalizing t id with
  | zero => exact h
  | succ n ih =>
    exact ih (h.intern fun part hpart => List.mem_singleton.mp hpart ▸ hid) (first_intern t _)

theorem Anchored.look (h : t.Anchored) (type : TypeRef) : (t.look type).1.Anchored := by
  cases hb : type.base with
  | primitive p =>
    simp only [TypeTable.look, find, hb]
    have hinterned : (t.internPrimitive p.kind).1.Anchored :=
      h.intern fun part hpart => absurd hpart List.not_mem_nil
    exact hinterned.withBrackets (first_intern t _) _
  | user className =>
    cases hl : t.lookupClass className with
    | none =>
      simp only [TypeTable.look, find, hb, hl, Option.map_none]
      exact h
    | some base =>
      simp only [TypeTable.look, find, hb, hl, Option.map_some]
      exact h.withBrackets ⟨_, hl⟩ _

end TypeTable

/-- Questions of which those for methods come after questions for the types in their
signatures, all of which are known. What was asked before is a list of types. -/
def Prepared (declared : List String) (asked : List TypeRef) : List Ask → Prop
  | [] => True
  | .type type :: asks => Prepared declared (type :: asked) asks
  | .method result parameters :: asks =>
    (∀ type ∈ result :: parameters, type.isKnown declared = true ∧ type ∈ asked) ∧
      Prepared declared asked asks

namespace Prepared

variable {asked asked' types : List TypeRef} {asks asks' : List Ask}

theorem mono (h : Prepared declared asked asks) (hsub : asked ⊆ asked') :
    Prepared declared asked' asks := by
  induction asks generalizing asked asked' with
  | nil => trivial
  | cons a asks ih =>
    cases a with
    | type type => exact ih h (List.cons_subset_cons type hsub)
    | method result parameters =>
      exact ⟨fun type ht => ⟨(h.1 type ht).1, hsub (h.1 type ht).2⟩, ih h.2 hsub⟩

theorem append (h : Prepared declared asked asks) (h' : Prepared declared asked asks') :
    Prepared declared asked (asks ++ asks') := by
  induction asks generalizing asked with
  | nil => exact h'
  | cons a asks ih =>
    cases a with
    | type type => exact ih h (h'.mono (List.subset_cons_self type asked))
    | method result parameters => exact ⟨h.1, ih h.2 h'⟩

theorem flatMap {α : Type} {f : α → List Ask} (xs : List α)
    (h : ∀ x ∈ xs, Prepared declared asked (f x)) : Prepared declared asked (xs.flatMap f) := by
  induction xs with
  | nil => trivial
  | cons x xs ih =>
    rw [List.flatMap_cons]
    exact (h x List.mem_cons_self).append (ih fun y hy => h y (List.mem_cons_of_mem _ hy))

theorem types_append (h : Prepared declared (types ++ asked) asks) :
    Prepared declared asked (types.map .type ++ asks) := by
  induction types generalizing asked with
  | nil => exact h
  | cons type types ih =>
    refine ih (h.mono fun x hx => ?_)
    simp only [List.cons_append, List.mem_cons, List.mem_append] at hx ⊢
    tauto

theorem of_types (types : List TypeRef) : Prepared declared asked (types.map .type) := by
  have h : Prepared declared (types ++ asked) [] := trivial
  simpa using h.types_append

end Prepared

/-- A method asks for the types in its signature before it asks for the signature. -/
theorem Method.prepared_asks (m : Method ε) (asked : List TypeRef) :
    Prepared declared asked (m.asks declared) := by
  unfold Method.asks
  rw [← List.cons_append]
  refine Prepared.append (Prepared.types_append ?_) (.of_types _)
  by_cases hres : m.declaration.resolvable declared = true
  · have hknown : ∀ type ∈ m.type :: m.formals.map (·.type), type.isKnown declared = true :=
      List.all_eq_true.mp hres
    have hall : (m.formals.map (·.type)).takeWhile (·.isKnown declared) =
        m.formals.map (·.type) :=
      List.takeWhile_eq_self_iff.mpr fun type ht => hknown type (List.mem_cons_of_mem _ ht)
    rw [if_pos hres, hall]
    refine ⟨fun type ht => ⟨hknown type ht, ?_⟩, trivial⟩
    rcases List.mem_cons.mp ht with rfl | hformal
    · exact List.mem_append_right _ List.mem_cons_self
    · exact List.mem_append_left _ hformal
  · rw [if_neg hres]
    trivial

theorem Program.prepared_asks (p : Program ε) : Prepared p.declared [] p.asks := by
  refine .flatMap p.classes fun c _ => Prepared.append ?_ (.flatMap c.methods fun m _ => ?_)
  · have h : Prepared p.declared [] ((c.fields.map (·.type)).map .type) := .of_types _
    rwa [List.map_map] at h
  · exact m.prepared_asks []

namespace TypeTable

variable {t : TypeTable}

/-- Questions in the right order add types made of what a search finds. -/
theorem Anchored.askAll (h : t.Anchored) (hK : t.Knows declared) {asked : List TypeRef}
    {asks : List Ask}
    (hasked : ∀ type ∈ asked, type.isKnown declared = true → t.Holds (t.idOf type))
    (hasks : Prepared declared asked asks) : (t.askAll asks).Anchored := by
  induction asks generalizing t asked with
  | nil => exact h
  | cons a asks ih =>
    have hgrows := grows_ask t a
    -- What was there before is there after one more question.
    have hkept : ∀ type ∈ asked, type.isKnown declared = true →
        (t.ask a).Holds ((t.ask a).idOf type) := by
      intro type ht hk
      rw [idOf_of_grows hgrows (hasked type ht hk)]
      exact (hasked type ht hk).of_grows hgrows
    cases a with
    | type type =>
      refine ih (h.look type) (hK.of_grows hgrows) ?_ hasks
      rw [List.forall_mem_cons]
      refine ⟨fun hk => ?_, hkept⟩
      have hone : [Ask.type type] = [] ++ .type type :: [] := rfl
      exact (look_of_asks hK hk hone).2
    | method result parameters =>
      refine ih (h.intern fun part hpart => ?_) (hK.of_grows hgrows) hkept hasks.2
      obtain ⟨type, ht, rfl⟩ : ∃ type ∈ result :: parameters, t.idOf type = part := by
        simpa [TypeEntry.parts, eq_comm] using hpart
      obtain ⟨hk, ht⟩ := hasks.1 type ht
      exact first_idOf (hasked type ht hk)

end TypeTable

end IcFront
