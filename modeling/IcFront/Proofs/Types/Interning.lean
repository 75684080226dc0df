import IcFront.Proofs.Types.Indexed

/-!
# What a type table is after any calls

Whatever a new table is asked to do, and whether the calls succeed or fail, it stays
`Consed`: it starts with the primitive types, has no structural type twice, and an array or
a superclass refers to what was there before. `after_cases` says once what a call can do to
a table, namely nothing, the addition of a type that was not there, or a superclass; one
call keeps the invariant (`Consed.after`), and so do any (`consed_ofCalls`).

`hash_consing` collects what this means to those who call: ids never change their meaning,
and asking for the same structural type again gives the same id and adds nothing.
-/

namespace IcFront

/-- The type that a call asks for, if it asks for a type. -/
def Call.requested? : Call → Option TypeEntry
  | internPrimitive kind => some (.primitive kind)
  | internClass className => some (.class_ className)
  | internArray element => some (.array element)
  | internMethod result parameters => some (.method result parameters)
  | setSuperclass _ _ => none

namespace TypeTable

variable {t t' : TypeTable} {e : TypeEntry} {id : Int}

/-! ## Least ids -/

/-- A search finds no greater id than any that the type has. -/
theorem find?_le (h : t.find? e = some id) {id' : Int} (hid' : t.entry? id' = some e) :
    id ≤ id' := by
  obtain ⟨j, rfl, _⟩ := (holds_of_entry hid').index
  rw [entry?_succ] at hid'
  rw [find?_eq_map] at h
  obtain ⟨i, hi, rfl⟩ := Option.map_eq_some_iff.mp h
  obtain ⟨_, _, hbefore⟩ := List.findIdx?_eq_some_iff_getElem.mp hi
  obtain ⟨hj, hat⟩ := List.getElem?_eq_some_iff.mp hid'
  -- The type does not stand before the place where it is found.
  have hle : i ≤ j := by
    by_contra hnot
    have hne := hbefore j (Nat.lt_of_not_le hnot)
    rw [hat, beq_self_eq_true] at hne
    exact absurd rfl hne
  show (i : Int) + 1 ≤ (j : Int) + 1
  omega

/-- A search finds every type of the table. -/
theorem exists_find? (h : t.entry? id = some e) : ∃ id', t.find? e = some id' := by
  cases hfind : t.find? e with
  | some id' => exact ⟨id', rfl⟩
  | none =>
    obtain ⟨i, rfl, _⟩ := (holds_of_entry h).index
    rw [entry?_succ] at h
    rw [find?_eq_map, Option.map_eq_none_iff, List.findIdx?_eq_none_iff] at hfind
    have hne := hfind e (List.mem_of_getElem? h)
    rw [beq_self_eq_true] at hne
    exact absurd hne (by simp)

/-- A search finds the least id of a type. -/
theorem find?_eq_some_iff :
    t.find? e = some id ↔
      t.entry? id = some e ∧ ∀ id' : Int, t.entry? id' = some e → id ≤ id' := by
  constructor
  · intro h
    exact ⟨entry?_of_find? h, fun id' hid' => find?_le h hid'⟩
  · intro h
    obtain ⟨hentry, hleast⟩ := h
    obtain ⟨id', hid'⟩ := exists_find? hentry
    have hle : id ≤ id' := hleast id' (entry?_of_find? hid')
    have hge : id' ≤ id := find?_le hid' hentry
    rw [hid', Int.le_antisymm hge hle]

theorem find?_eq_none_iff : t.find? e = none ↔ ∀ id : Int, t.entry? id ≠ some e := by
  constructor
  · intro hnone id hid
    obtain ⟨id', hid'⟩ := exists_find? hid
    exact absurd (hnone.symm.trans hid') (by simp)
  · intro h
    cases hfind : t.find? e with
    | none => rfl
    | some id => exact absurd (entry?_of_find? hfind) (h id)

/-! ## What a call can do -/

theorem add_isPrefix (t : TypeTable) (e : TypeEntry) : t.entries <+: (t.add e).1.entries :=
  List.prefix_append _ _

/-- A call leaves a table alone, or adds a type, which is a class or was not there and whose
element is there if it is an array, or gives a class a superclass. -/
theorem after_cases (t : TypeTable) (c : Call) :
    t.after c = t ∨
      (∃ e, t.after c = (t.add e).1 ∧ (e.kind = .class_ ∨ t.find? e = none) ∧
        ∀ element, e = .array element → t.Holds element) ∨
      ∃ id s className superclass,
        t.after c = { t with superclasses := (id, s) :: t.superclasses } ∧
          t.entry? id = some (.class_ className) ∧ t.lookupClass superclass = some s := by
  -- all types but classes are looked for first
  have hintern : ∀ e : TypeEntry, (∀ element, e = .array element → t.Holds element) →
      (t.intern e).1 = t ∨ ∃ e', (t.intern e).1 = (t.add e').1 ∧
        (e'.kind = .class_ ∨ t.find? e' = none) ∧
          ∀ element, e' = .array element → t.Holds element := by
    intro e helement
    rw [intern]
    cases hfind : t.find? e with
    | some id => exact Or.inl rfl
    | none => exact Or.inr ⟨e, rfl, Or.inr hfind, helement⟩
  unfold after
  cases c with
  | internPrimitive kind =>
    exact (hintern (.primitive kind) fun _ h => absurd h (by simp)).imp_right Or.inl
  | internClass className =>
    exact Or.inr (Or.inl ⟨.class_ className, rfl, Or.inl rfl, fun _ h => absurd h (by simp)⟩)
  | internArray element =>
    rw [call, internArray]
    cases helement : t.entry? element with
    | none => exact Or.inl rfl
    | some e =>
      have hholds : ∀ element', TypeEntry.array element = .array element' →
          t.Holds element' := by
        intro element' heq
        obtain rfl := TypeEntry.array.inj heq
        exact holds_of_entry helement
      exact (hintern (.array element) hholds).imp_right Or.inl
  | internMethod result parameters =>
    exact (hintern (.method result parameters) fun _ h => absurd h (by simp)).imp_right Or.inl
  | setSuperclass id superclass =>
    rw [call, setSuperclass]
    cases hid : t.entry? id with
    | none => exact Or.inl rfl
    | some e =>
      cases e with
      | primitive _ | array _ | method _ _ => exact Or.inl rfl
      | class_ className =>
        cases hs : t.lookupClass superclass with
        | none => exact Or.inl rfl
        | some s => exact Or.inr (Or.inr ⟨id, s, className, superclass, rfl, hid, hs⟩)

theorem after_isPrefix (t : TypeTable) (c : Call) : t.entries <+: (t.after c).entries := by
  rcases t.after_cases c with heq | ⟨e, heq, _⟩ | ⟨_, _, _, _, heq, _⟩
  · exact ⟨[], by rw [heq, List.append_nil]⟩
  · exact heq ▸ t.add_isPrefix e
  · exact ⟨[], by rw [heq, List.append_nil]⟩

/-- A call for a type fails only for arrays of what is not in the table. -/
theorem call_requested {c : Call} (hc : c.requested? = some e)
    (helement : ∀ element, e = .array element → t.Holds element) :
    t.call c = .ok (if e.kind = .class_ then t.add e else t.intern e) := by
  cases c with
  | internPrimitive kind =>
    obtain rfl := Option.some.inj hc
    rfl
  | internClass className =>
    obtain rfl := Option.some.inj hc
    rfl
  | internArray element =>
    obtain rfl := Option.some.inj hc
    obtain ⟨e, he⟩ := Holds.entry? (helement element rfl)
    rw [call, internArray, he]
    rfl
  | internMethod result parameters =>
    obtain rfl := Option.some.inj hc
    rfl
  | setSuperclass id superclass => exact absurd hc (by simp [Call.requested?])

theorem internArray_of_not_holds {element : Int} (h : ¬ t.Holds element) :
    t.internArray element = .error (.unknownId element) := by
  rw [internArray]
  cases he : t.entry? element with
  | none => rfl
  | some e => exact absurd (holds_of_entry he) h

/-- If a call for an array succeeds, its element is there. -/
theorem holds_of_call {c : Call} (hc : c.requested? = some e) {r : TypeTable × TypeId}
    (h : t.call c = .ok r) : ∀ element, e = .array element → t.Holds element := by
  intro element heq
  subst heq
  cases c with
  | internArray element' =>
    obtain rfl := TypeEntry.array.inj (Option.some.inj hc)
    by_contra hnot
    rw [call, internArray_of_not_holds hnot] at h
    exact absurd h (by simp)
  | internPrimitive _ | internClass _ | internMethod _ _ | setSuperclass _ _ =>
    exact absurd hc (by simp [Call.requested?])

theorem after_of_call {c : Call} (h : t.call c = .ok (t', id)) : t.after c = t' := by
  rw [after, h]

/-- A call gives the id of the type that it asks for. -/
theorem entry?_of_call {c : Call} (hc : c.requested? = some e) (h : t.call c = .ok (t', id)) :
    t'.entry? id = some e := by
  rw [call_requested hc (holds_of_call hc h), Except.ok.injEq] at h
  split at h
  next =>
    obtain ⟨rfl, rfl⟩ := Prod.mk.inj h
    exact (t.entry?_add e).mpr (Or.inr ⟨rfl, rfl⟩)
  next =>
    rw [show t' = (t.intern e).1 from congrArg Prod.fst h.symm,
      show id = (t.intern e).2 from congrArg Prod.snd h.symm]
    exact entry?_intern t e

/-- A structural type that is there is not added again. -/
theorem call_of_find? {c : Call} (hc : c.requested? = some e) (hkind : e.kind ≠ .class_)
    (hfind : t.find? e = some id) (helement : ∀ element, e = .array element → t.Holds element) :
    t.call c = .ok (t, id) := by
  rw [call_requested hc helement, if_neg hkind, intern, hfind]

/-! ## The invariant -/

/-- A table as calls leave it. -/
structure Consed (t : TypeTable) : Prop where
  primitives : PrimitiveKind.all.map .primitive <+: t.entries
  /-- A structural type has one id only, the one that a search finds. -/
  found : ∀ (id : Int) (e : TypeEntry), t.entry? id = some e → e.kind ≠ .class_ →
    t.find? e = some id
  elements : ∀ id element : Int, t.entry? id = some (.array element) →
    1 ≤ element ∧ element < id
  superclasses : ∀ id s, (id, s) ∈ t.superclasses → ∃ className superclass,
    t.entry? id = some (.class_ className) ∧ t.lookupClass superclass = some s

theorem consed_new (name : String) : (new name).Consed where
  primitives := List.prefix_refl _
  found id e hid _ := by
    obtain ⟨i, rfl, hlt⟩ := (holds_of_entry hid).index
    rw [entry?_succ] at hid
    have hi : i < 5 := hlt
    match i, hi, hid with
    | 0, _, hid | 1, _, hid | 2, _, hid | 3, _, hid | 4, _, hid =>
      obtain rfl := Option.some.inj hid
      rfl
  elements id element hid := by
    obtain ⟨i, rfl, _⟩ := (holds_of_entry hid).index
    rw [entry?_succ] at hid
    obtain ⟨kind, _, heq⟩ := List.mem_map.mp (List.mem_of_getElem? hid)
    exact absurd heq (by simp)
  superclasses _ _ h := absurd h List.not_mem_nil

namespace Consed

theorem add (h : t.Consed) (hnew : e.kind = .class_ ∨ t.find? e = none)
    (helement : ∀ element, e = .array element → t.Holds element) : (t.add e).1.Consed where
  primitives := h.primitives.trans (t.add_isPrefix e)
  found id e' hid hkind := by
    rcases (t.entry?_add e).mp hid with hold | ⟨rfl, rfl⟩
    · exact find?_of_isPrefix (t.add_isPrefix e) (h.found id e' hold hkind)
    · have hnone : t.find? e = none := hnew.resolve_left hkind
      rw [find?_add, hnone, Option.none_or, if_pos rfl]
  elements id element hid := by
    rcases (t.entry?_add e).mp hid with hold | ⟨rfl, rfl⟩
    · exact h.elements id element hold
    · obtain ⟨hpos, hle⟩ := helement element rfl
      exact ⟨hpos, Int.lt_add_one_of_le hle⟩
  superclasses id s hmem := by
    obtain ⟨className, superclass, hid, hs⟩ := h.superclasses id s hmem
    exact ⟨className, superclass, entry?_of_isPrefix (t.add_isPrefix e) hid,
      find?_of_isPrefix (t.add_isPrefix e) hs⟩

/-- One call keeps the invariant. -/
theorem after (h : t.Consed) (c : Call) : (t.after c).Consed := by
  rcases t.after_cases c with heq | ⟨e, heq, hnew, helement⟩ |
    ⟨id, s, className, superclass, heq, hid, hs⟩
  · rw [heq]
    exact h
  · rw [heq]
    exact h.add hnew helement
  · rw [heq]
    refine ⟨h.primitives, h.found, h.elements, fun id' s' hmem => ?_⟩
    rcases List.mem_cons.mp hmem with hfirst | hrest
    · obtain ⟨rfl, rfl⟩ := Prod.mk.inj hfirst
      exact ⟨className, superclass, hid, hs⟩
    · exact h.superclasses id' s' hrest

end Consed

/-! ## Any calls -/

theorem ofCalls_append (name : String) (cs ds : List Call) :
    ofCalls name (cs ++ ds) = ds.foldl TypeTable.after (ofCalls name cs) :=
  List.foldl_append

/-- Any calls keep the invariant. -/
theorem consed_ofCalls (name : String) (cs : List Call) : (ofCalls name cs).Consed := by
  have hrun : ∀ (cs : List Call) (t : TypeTable), t.Consed →
      (cs.foldl TypeTable.after t).Consed := by
    intro cs
    induction cs with
    | nil => exact fun _ h => h
    | cons c cs ih => exact fun t h => ih _ (h.after c)
  exact hrun cs _ (consed_new name)

/-- What is there stays in its place. -/
theorem ofCalls_isPrefix (name : String) (cs ds : List Call) :
    (ofCalls name cs).entries <+: (ofCalls name (cs ++ ds)).entries := by
  have hrun : ∀ (ds : List Call) (t : TypeTable),
      t.entries <+: (ds.foldl TypeTable.after t).entries := by
    intro ds
    induction ds with
    | nil => exact fun t => List.prefix_refl _
    | cons d ds ih => exact fun t => (t.after_isPrefix d).trans (ih _)
  rw [ofCalls_append]
  exact hrun ds _

/-! ## What callers see -/

/-- What those who call see of a table after the calls `cs`, and whatever they call next. -/
structure HashConsing (name : String) (cs : List Call) (t : TypeTable) : Prop where
  /-- Ids are positions, and the first are those of the primitive types. -/
  ids : ∀ k : Nat, t.entry? ((k : Int) + 1) = t.entries[k]?
  primitives : t.entries.take 5 = PrimitiveKind.all.map .primitive
  /-- What is there stays as it is. -/
  entries_kept : ∀ ds, t.entries <+: (ofCalls name (cs ++ ds)).entries
  entry_kept : ∀ ds (id : Int) e, t.entry? id = some e →
    TypeTable.entry? (ofCalls name (cs ++ ds)) id = some e
  /-- No structural type is there twice. -/
  primitive_once : ∀ (i j : Int) kind kind', t.entry? i = some (.primitive kind) →
    t.entry? j = some (.primitive kind') → kind.name = kind'.name → i = j
  array_once : ∀ (i j element : Int), t.entry? i = some (.array element) →
    t.entry? j = some (.array element) → i = j
  method_once : ∀ (i j result : Int) parameters, t.entry? i = some (.method result parameters) →
    t.entry? j = some (.method result parameters) → i = j
  /-- A class is always new. -/
  class_new : ∀ className, ∃ t', t.call (.internClass className) = .ok (t', t.size + 1) ∧
    t'.entries = t.entries ++ [.class_ className]
  /-- A call for a type gives its id, unless it is an array of what is not there. -/
  gives : ∀ c e, c.requested? = some e → (∀ element, e = .array element → t.Holds element) →
    ∃ t' id, t.call c = .ok (t', id) ∧ t'.entry? id = some e
  refuses : ∀ element : Int, ¬ t.Holds element →
    t.call (.internArray element) = .error (.unknownId element)
  /-- The same structural type has the same id at any later time, and is not added again. -/
  again : ∀ c e t' id, c.requested? = some e → e.kind ≠ .class_ → t.call c = .ok (t', id) →
    ∀ ds, (ofCalls name (cs ++ c :: ds)).call c = .ok (ofCalls name (cs ++ c :: ds), id)
  element_before : ∀ id element : Int, t.entry? id = some (.array element) →
    1 ≤ element ∧ element < id
  /-- A class name means the first class of that name, now and later. -/
  lookupClass_least : ∀ className (id : Int), t.lookupClass className = some id ↔
    t.entry? id = some (.class_ className) ∧
      ∀ id' : Int, t.entry? id' = some (.class_ className) → id ≤ id'
  lookupClass_none : ∀ className, t.lookupClass className = none ↔
    ∀ id : Int, t.entry? id ≠ some (.class_ className)
  lookupClass_kept : ∀ ds className id, t.lookupClass className = some id →
    (ofCalls name (cs ++ ds)).lookupClass className = some id
  /-- A superclass is a class that its name means. -/
  superclassOf : ∀ id s, t.superclassOf id = some s → ∃ className superclass,
    t.entry? id = some (.class_ className) ∧ t.entry? s = some (.class_ superclass) ∧
      t.lookupClass superclass = some s
  /-- A table with indexes has the same types, and answers all calls in the same way. -/
  indexed : Mirrors (.ofCalls cs) t
  indexed_call : ∀ c, Mirrors.SameOutcome ((IndexedTable.ofCalls cs).call c) (t.call c)

theorem Consed.eq_of_entry? (h : t.Consed) {i j : Int} (hkind : e.kind ≠ .class_)
    (hi : t.entry? i = some e) (hj : t.entry? j = some e) : i = j :=
  Option.some.inj ((h.found i e hi hkind).symm.trans (h.found j e hj hkind))

theorem PrimitiveKind.name_inj {kind kind' : PrimitiveKind} (h : kind.name = kind'.name) :
    kind = kind' := by
  revert h
  cases kind <;> cases kind' <;> decide

/-- A type table consistently hands out ids, whatever it is asked to do. -/
theorem hash_consing (name : String) (cs : List Call) :
    HashConsing name cs (ofCalls name cs) := by
  have h := consed_ofCalls name cs
  generalize ht : ofCalls name cs = t at h
  have hkept : ∀ ds, t.entries <+: (ofCalls name (cs ++ ds)).entries := by
    rw [← ht]
    exact ofCalls_isPrefix name cs
  have hmirrors : Mirrors (.ofCalls cs) t := by
    rw [← ht]
    exact mirrors_ofCalls name cs
  refine ⟨entry?_succ t, ?_, hkept, fun ds id e => entry?_of_isPrefix (hkept ds), ?_, ?_, ?_, ?_,
    fun c e hc helement => ?_, fun element => internArray_of_not_holds, ?_, h.elements,
    fun className id => find?_eq_some_iff, fun className => find?_eq_none_iff,
    fun ds className id => find?_of_isPrefix (hkept ds), ?_, hmirrors, hmirrors.call⟩
  · exact (List.prefix_iff_eq_take.mp h.primitives).symm
  · intro i j kind kind' hi hj hname
    obtain rfl := PrimitiveKind.name_inj hname
    exact h.eq_of_entry? (by simp [TypeEntry.kind]) hi hj
  · intro i j element hi hj
    exact h.eq_of_entry? (by simp [TypeEntry.kind]) hi hj
  · intro i j result parameters hi hj
    exact h.eq_of_entry? (by simp [TypeEntry.kind]) hi hj
  · intro className
    exact ⟨_, rfl, rfl⟩
  · have hcall := call_requested hc helement
    exact ⟨_, _, hcall, entry?_of_call hc hcall⟩
  · intro c e t' id hc hkind hcall ds
    -- The type is found where the call has put it, then and later.
    have hlater : t'.entries <+: (ofCalls name (cs ++ c :: ds)).entries := by
      have hnext : ofCalls name (cs ++ [c]) = t' := by
        rw [ofCalls_append, ht]
        exact after_of_call hcall
      have hrest := ofCalls_isPrefix name (cs ++ [c]) ds
      rwa [hnext, List.append_assoc, List.singleton_append] at hrest
    have hfound := (consed_ofCalls name (cs ++ c :: ds)).found id e
      (entry?_of_isPrefix hlater (entry?_of_call hc hcall)) hkind
    refine call_of_find? hc hkind hfound fun element heq => ?_
    obtain ⟨x, hx⟩ := Holds.entry? (holds_of_call hc hcall element heq)
    exact holds_of_entry (entry?_of_isPrefix (hkept (c :: ds)) hx)
  · intro id s hs
    obtain ⟨newer, older, heq, _⟩ := List.lookup_eq_some_iff.mp hs
    have hmem : (id, s) ∈ t.superclasses :=
      heq ▸ List.mem_append_right newer List.mem_cons_self
    obtain ⟨className, superclass, hid, hlookup⟩ := h.superclasses id s hmem
    exact ⟨className, superclass, hid, entry?_of_find? hlookup, hlookup⟩

end TypeTable

end IcFront
