import IcFront.Proofs.Steps
import IcFront.Proofs.Types.Growth
import IcFront.Types.Listing

/-!
# Sound type tables

A type table is `Sound` if the parts of every type come before it. To spell a type is
then to spell types of lesser ids, so that every type of the table has a spelling
(`Sound.describe`) and the table has a listing (`Sound.listing`).

Tables stay sound as long as types are made of types that are there already
(`Sound.intern`), and no id goes out of use (`Holds.of_grows`).
-/

namespace IcFront

/-- The ids of the types that a type is made of. -/
def TypeEntry.parts : TypeEntry → List TypeId
  | primitive _ | class_ _ => []
  | array element => [element]
  | method result parameters => result :: parameters

namespace TypeTable

/-- An id is that of a type of the table. -/
def Holds (t : TypeTable) (id : Int) : Prop := 1 ≤ id ∧ id ≤ t.size

/-- The parts of every type come before it. -/
def Sound (t : TypeTable) : Prop :=
  ∀ (id : Int) (e : TypeEntry), t.entry? id = some e → ∀ part : Int, part ∈ e.parts →
    1 ≤ part ∧ part < id

variable {t t' : TypeTable} {id : Int} {e : TypeEntry}

/-! ## Ids and what they mean -/

/-- The ids are the numbers of the entries, from 1 on. -/
theorem entry?_succ (t : TypeTable) (i : Nat) : t.entry? ((i : Int) + 1) = t.entries[i]? := by
  have hpos : (1 : Int) ≤ (i : Int) + 1 := by omega
  have hindex : ((i : Int) + 1).toNat - 1 = i := by omega
  rw [TypeTable.entry?, if_pos hpos, hindex]

theorem Holds.index (h : t.Holds id) : ∃ i : Nat, id = (i : Int) + 1 ∧ i < t.size := by
  obtain ⟨hpos, hle⟩ := h
  exact ⟨Int.toNat id - 1, by omega, by omega⟩

theorem holds_succ {i : Nat} : t.Holds ((i : Int) + 1) ↔ i < t.size := by
  constructor
  · intro h
    have := h.2
    omega
  · intro h
    exact ⟨by omega, by omega⟩

theorem holds_of_entry (h : t.entry? id = some e) : t.Holds id := by
  by_cases hpos : (1 : Int) ≤ id
  · obtain ⟨i, rfl⟩ : ∃ i : Nat, id = (i : Int) + 1 := ⟨Int.toNat id - 1, by omega⟩
    rw [entry?_succ] at h
    exact holds_succ.mpr (List.getElem?_eq_some_iff.mp h).1
  · rw [TypeTable.entry?, if_neg hpos] at h
    cases h

theorem Holds.entry? (h : t.Holds id) : ∃ e, t.entry? id = some e := by
  obtain ⟨i, rfl, hlt⟩ := h.index
  exact ⟨_, (entry?_succ t i).trans (List.getElem?_eq_getElem hlt)⟩

/-- The id that a search gives is that of what was searched for. -/
theorem entry?_of_find? (h : t.find? e = some id) : t.entry? id = some e := by
  rw [find?_eq_map] at h
  obtain ⟨i, hi, rfl⟩ := Option.map_eq_some_iff.mp h
  obtain ⟨hlt, heq, -⟩ := List.findIdx?_eq_some_iff_getElem.mp hi
  refine (entry?_succ t i).trans ?_
  rw [List.getElem?_eq_getElem hlt, eq_of_beq heq]

theorem entry?_intern (t : TypeTable) (e : TypeEntry) :
    TypeTable.entry? (t.intern e).1 (t.intern e).2 = some e :=
  entry?_of_find? (find?_intern t e)

theorem holds_intern (t : TypeTable) (e : TypeEntry) : (t.intern e).1.Holds (t.intern e).2 :=
  holds_of_entry (entry?_intern t e)

/-- An id keeps its meaning when types are added. -/
theorem entry?_of_isPrefix (hp : t.entries <+: t'.entries) (h : t.entry? id = some e) :
    t'.entry? id = some e := by
  obtain ⟨i, rfl, hlt⟩ := (holds_of_entry h).index
  obtain ⟨more, hmore⟩ := hp
  rw [entry?_succ] at h ⊢
  rw [← hmore, List.getElem?_append_left hlt, h]

theorem entry?_of_grows (hg : t.Grows t') (h : t.entry? id = some e) : t'.entry? id = some e :=
  entry?_of_isPrefix hg.isPrefix h

theorem Holds.of_grows (h : t.Holds id) (hg : t.Grows t') : t'.Holds id := by
  obtain ⟨e, he⟩ := h.entry?
  exact holds_of_entry (entry?_of_grows hg he)

/-! ## Sound tables -/

theorem Sound.of_entries (h : t.Sound) (he : t'.entries = t.entries) : t'.Sound := by
  intro id e hid
  refine h id e ?_
  rwa [TypeTable.entry?, he] at hid

theorem Holds.of_entries (h : t.Holds id) (he : t'.entries = t.entries) : t'.Holds id := by
  rwa [Holds, size, he]

/-- A type may be added once its parts are there. -/
theorem Sound.append (h : t.Sound) (hparts : ∀ part ∈ e.parts, t.Holds part) :
    Sound { t with entries := t.entries ++ [e] } := by
  intro id x hid part hpart
  obtain ⟨i, rfl, hlt⟩ := (holds_of_entry hid).index
  rw [entry?_succ] at hid
  have hle : i ≤ t.entries.length := by
    simp only [size, List.length_append, List.length_singleton] at hlt
    omega
  rcases Nat.lt_or_eq_of_le hle with hold | rfl
  · rw [List.getElem?_append_left hold] at hid
    exact h _ x ((entry?_succ t i).trans hid) part hpart
  · rw [List.getElem?_concat_length] at hid
    obtain rfl := Option.some.inj hid
    obtain ⟨hpos, hbefore⟩ := hparts part hpart
    exact ⟨hpos, Int.lt_add_one_of_le hbefore⟩

theorem Sound.intern (h : t.Sound) (hparts : ∀ part ∈ e.parts, t.Holds part) :
    (t.intern e).1.Sound := by
  unfold TypeTable.intern
  split
  next => exact h
  next => exact h.append hparts

theorem Sound.internClass (h : t.Sound) (className : String) : (t.internClass className).1.Sound :=
  h.append fun part hpart => absurd hpart (by simp [TypeEntry.parts])

/-- The table of the primitive types is sound. -/
theorem sound_new (name : String) : (new name).Sound := by
  intro id e hid part hpart
  obtain ⟨hpos, hle⟩ := holds_of_entry hid
  rw [TypeTable.entry?, if_pos hpos] at hid
  obtain ⟨k, -, rfl⟩ := List.mem_map.mp (List.mem_of_getElem? hid)
  exact absurd hpart (by simp [TypeEntry.parts])

/-! ## Spellings -/

/-- A spelling does not depend on how deep types may be nested. -/
theorem describeWithin_of_le {depth depth' : Nat} {text : String}
    (h : t.describeWithin depth id = .ok text) (hle : depth ≤ depth') :
    t.describeWithin depth' id = .ok text := by
  induction depth generalizing depth' id text with
  | zero => cases h
  | succ depth ih =>
    obtain ⟨depth', rfl⟩ : ∃ d, depth' = d + 1 := ⟨depth' - 1, by omega⟩
    have hle : depth ≤ depth' := by omega
    have hstep : ∀ id text, t.describeWithin depth id = .ok text →
        t.describeWithin depth' id = .ok text := fun id text h => ih h hle
    rw [describeWithin] at h ⊢
    cases he : t.entry? id with
    | none => rw [he] at h; cases h
    | some e =>
      rw [he] at h
      cases e with
      | primitive kind => exact h
      | class_ className => exact h
      | array element =>
        obtain ⟨spelling, hspelling, h⟩ := Except.bind_eq_ok h
        simp only [hstep _ _ hspelling]
        exact h
      | method result parameters =>
        obtain ⟨spellings, hspellings, h⟩ := Except.bind_eq_ok h
        obtain ⟨spelling, hspelling, h⟩ := Except.bind_eq_ok h
        simp only [mapM_ok_imp hstep hspellings, hstep _ _ hspelling]
        exact h

/-- A type is spelled in no more steps than its id. -/
theorem Sound.describeWithin (h : t.Sound) {depth : Nat} (hid : t.Holds id)
    (hdepth : id ≤ depth) : ∃ text, t.describeWithin depth id = .ok text := by
  induction depth generalizing id with
  | zero =>
    have := hid.1
    omega
  | succ depth ih =>
    obtain ⟨e, he⟩ := hid.entry?
    -- The parts of the type have lesser ids.
    have hpart : ∀ part ∈ e.parts, ∃ text, t.describeWithin depth part = .ok text := by
      intro part hpart
      obtain ⟨hpos, hlt⟩ := h id e he part hpart
      exact ih ⟨hpos, by have := hid.2; omega⟩ (by omega)
    rw [TypeTable.describeWithin, he]
    cases e with
    | primitive kind => exact ⟨_, rfl⟩
    | class_ className => exact ⟨_, rfl⟩
    | array element =>
      obtain ⟨text, htext⟩ := hpart element (by simp [TypeEntry.parts])
      simp only [htext]
      exact ⟨_, rfl⟩
    | method result parameters =>
      obtain ⟨text, htext⟩ := hpart result (by simp [TypeEntry.parts])
      obtain ⟨texts, htexts⟩ := exists_mapM_ok fun part hmem =>
        hpart part (List.mem_cons_of_mem _ hmem)
      simp only [htext, htexts]
      exact ⟨_, rfl⟩

/-- Every type of a sound table has a spelling. -/
theorem Sound.describe (h : t.Sound) (hid : t.Holds id) : ∃ text, t.describe id = .ok text := by
  refine h.describeWithin hid ?_
  have := hid.2
  omega

/-! ## Listings -/

theorem Sound.line (h : t.Sound) (hid : t.Holds id) : ∃ text, t.line id = .ok text := by
  obtain ⟨e, he⟩ := hid.entry?
  obtain ⟨spelling, hspelling⟩ := h.describe hid
  rw [TypeTable.line, he]
  cases e with
  | primitive kind => exact ⟨_, rfl⟩
  | class_ className => exact ⟨_, rfl⟩
  | array element => simp only [about, hspelling]; exact ⟨_, rfl⟩
  | method result parameters => simp only [about, hspelling]; exact ⟨_, rfl⟩

theorem holds_of_mem_idsOf {kind : TypeKind} (h : id ∈ t.idsOf kind) : t.Holds id := by
  obtain ⟨⟨e, i⟩, hmem, rfl⟩ := List.mem_map.mp h
  have hlt := (List.mem_zipIdx (List.mem_filter.mp hmem).1).2.1
  show (1 : Int) ≤ (i : Int) + 1 ∧ (i : Int) + 1 ≤ t.entries.length
  omega

/-- A sound table has a listing. -/
theorem Sound.listing (h : t.Sound) : ∃ text, t.listing = .ok text := by
  obtain ⟨lines, hlines⟩ : ∃ lines, (TypeKind.all.flatMap t.idsOf).mapM t.line = .ok lines := by
    refine exists_mapM_ok fun id hid => ?_
    obtain ⟨kind, -, hid⟩ := List.mem_flatMap.mp hid
    exact h.line (holds_of_mem_idsOf hid)
  rw [TypeTable.listing, hlines]
  exact ⟨_, rfl⟩

end TypeTable

namespace Draft

open TypeTable

/-- Brackets are put after a type that is there. -/
theorem withBrackets_sound {t : TypeTable} {id : TypeId} (h : t.Sound) (hid : t.Holds id)
    (n : Nat) : (withBrackets t id n).1.Sound ∧ (withBrackets t id n).1.Holds
      (withBrackets t id n).2 := by
  induction n generalizing t id with
  | zero => exact ⟨h, hid⟩
  | succ n ih =>
    exact ih (h.intern fun part hpart => List.mem_singleton.mp hpart ▸ hid) (holds_intern t _)

end Draft

end IcFront
