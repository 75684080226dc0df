import IcFront.Proofs.Types.Sound

/-!
# Type tables with indexes

A `TypeTable` finds the id of a type by a search among its entries. An `IndexedTable`
does without: it has an index for each sort of type, from what a type is asked for by to
its id, and every entry says its own id. The price is that each `Call` must keep all of
this up, and that nothing may be left half done by a call that fails.

Both kinds of table are `Mirrors` of each other after the same calls: no call tells them
apart (`Mirrors.call`), so that they stay so forever (`mirrors_ofCalls`).
-/

namespace IcFront

/-- What a type table can be asked to do. -/
inductive Call
  | internPrimitive (kind : PrimitiveKind)
  | internClass (className : String)
  | internArray (element : TypeId)
  | internMethod (result : TypeId) (parameters : List TypeId)
  | setSuperclass (id : TypeId) (superclass : String)

namespace TypeTable

/-- What becomes of a table by a call, and the id that the call gives. -/
def call (t : TypeTable) : Call → Except TypeFault (TypeTable × TypeId)
  | .internPrimitive kind => .ok (t.internPrimitive kind)
  | .internClass className => .ok (t.internClass className)
  | .internArray element => t.internArray element
  | .internMethod result parameters => .ok (t.internMethod result parameters)
  | .setSuperclass id superclass => t.setSuperclass id superclass

/-- The table after a call, the same one if the call fails. -/
def after (t : TypeTable) (c : Call) : TypeTable :=
  match t.call c with
  | .ok (t, _) => t
  | .error _ => t

/-- A table after calls, from a new one on. -/
def ofCalls (name : String) (cs : List Call) : TypeTable := cs.foldl after (new name)

end TypeTable

/-! ## The indexed table -/

/-- A type table with indexes. The newest association of a key counts. -/
structure IndexedTable where
  /-- The types, each with its id. -/
  entries : List (TypeId × TypeEntry) := []
  primitives : List (PrimitiveKind × TypeId) := []
  arrays : List (TypeId × TypeId) := []
  methods : List ((TypeId × List TypeId) × TypeId) := []
  classes : List (String × TypeId) := []
  superclasses : List (TypeId × TypeId) := []

namespace IndexedTable

/-- The table with one more type, which no index has yet, and the id of that type. -/
def add (x : IndexedTable) (e : TypeEntry) : IndexedTable × TypeId :=
  let id : TypeId := x.entries.length + 1
  ({ x with entries := x.entries ++ [(id, e)] }, id)

/-- The type with an id, with the id that it says. -/
def entry? (x : IndexedTable) (id : TypeId) : Option (TypeId × TypeEntry) :=
  if 1 ≤ id ∧ id ≤ x.entries.length then x.entries[id.toNat - 1]? else none

/-- The id of a primitive type. -/
def internPrimitive (x : IndexedTable) (kind : PrimitiveKind) : IndexedTable × TypeId :=
  match x.primitives.lookup kind with
  | some id => (x, id)
  | none =>
    let (x, id) := x.add (.primitive kind)
    ({ x with primitives := (kind, id) :: x.primitives }, id)

/-- A new class type. The first class of a name is the one that the index has. -/
def internClass (x : IndexedTable) (className : String) : IndexedTable × TypeId :=
  let (x, id) := x.add (.class_ className)
  match x.classes.lookup className with
  | some _ => (x, id)
  | none => ({ x with classes := (className, id) :: x.classes }, id)

/-- The id of the type of arrays of a type of the table. -/
def internArray (x : IndexedTable) (element : TypeId) :
    Except TypeFault (IndexedTable × TypeId) :=
  match x.entry? element with
  | none => .error (.unknownId element)
  | some _ =>
    match x.arrays.lookup element with
    | some id => .ok (x, id)
    | none =>
      let (x, id) := x.add (.array element)
      .ok ({ x with arrays := (element, id) :: x.arrays }, id)

/-- The id of a method type. -/
def internMethod (x : IndexedTable) (result : TypeId) (parameters : List TypeId) :
    IndexedTable × TypeId :=
  match x.methods.lookup (result, parameters) with
  | some id => (x, id)
  | none =>
    let (x, id) := x.add (.method result parameters)
    ({ x with methods := ((result, parameters), id) :: x.methods }, id)

/-- Makes the class with a name the superclass of a class, and gives its id. -/
def setSuperclass (x : IndexedTable) (id : TypeId) (superclass : String) :
    Except TypeFault (IndexedTable × TypeId) :=
  match x.entry? id with
  | none => .error (.unknownId id)
  | some (_, .class_ className) =>
    match x.classes.lookup superclass with
    | none => .error (.unresolvedSuperclass className superclass)
    | some s => .ok ({ x with superclasses := (id, s) :: x.superclasses }, s)
  | some _ => .error (.notAClass id)

/-- What becomes of a table by a call, and the id that the call gives. -/
def call (x : IndexedTable) : Call → Except TypeFault (IndexedTable × TypeId)
  | .internPrimitive kind => .ok (x.internPrimitive kind)
  | .internClass className => .ok (x.internClass className)
  | .internArray element => x.internArray element
  | .internMethod result parameters => .ok (x.internMethod result parameters)
  | .setSuperclass id superclass => x.setSuperclass id superclass

/-- The table after a call, the same one if the call fails. -/
def after (x : IndexedTable) (c : Call) : IndexedTable :=
  match x.call c with
  | .ok (x, _) => x
  | .error _ => x

/-- A new table: an empty one that has been asked for each primitive type. -/
def new : IndexedTable := PrimitiveKind.all.foldl (fun x kind => (x.internPrimitive kind).1) {}

/-- A table after calls, from a new one on. -/
def ofCalls (cs : List Call) : IndexedTable := cs.foldl after new

end IndexedTable

/-! ## One index -/

namespace TypeTable

variable {e' : TypeEntry} {id : Int}

theorem entry?_add (t : TypeTable) (e : TypeEntry) :
    TypeTable.entry? (t.add e).1 id = some e' ↔
      t.entry? id = some e' ∨ id = (t.add e).2 ∧ e = e' := by
  by_cases hpos : (1 : Int) ≤ id
  · obtain ⟨i, rfl⟩ : ∃ i : Nat, id = (i : Int) + 1 := ⟨Int.toNat id - 1, by omega⟩
    rw [entry?_succ, entry?_succ]
    show (t.entries ++ [e])[i]? = some e' ↔ _ ∨ (i : Int) + 1 = (t.entries.length : Int) + 1 ∧ _
    rcases Nat.lt_trichotomy i t.entries.length with hlt | rfl | hgt
    · rw [List.getElem?_append_left hlt]
      constructor
      · exact Or.inl
      · intro hor
        rcases hor with hold | ⟨heq, _⟩
        · exact hold
        · omega
    · rw [List.getElem?_concat_length, List.getElem?_eq_none (Nat.le_refl _)]
      simp
    · rw [List.getElem?_eq_none (by simp only [List.length_append, List.length_singleton]; omega),
        List.getElem?_eq_none (Nat.le_of_lt hgt)]
      simp only [reduceCtorEq, false_or, false_iff, not_and]
      intro heq
      omega
  · have hne : id ≠ (t.add e).2 := by
      show id ≠ (t.entries.length : Int) + 1
      omega
    rw [TypeTable.entry?, if_neg hpos, TypeTable.entry?, if_neg hpos]
    simp [hne]

/-- A search finds what it found before, or the new type. -/
theorem find?_add (t : TypeTable) (e e' : TypeEntry) :
    (t.add e).1.find? e' = (t.find? e').or (if e = e' then some (t.add e).2 else none) := by
  rw [find?_eq_map, find?_eq_map, add, List.findIdx?_append]
  cases t.entries.findIdx? (· == e') with
  | some i => rfl
  | none =>
    by_cases he : e = e'
    · simp [List.findIdx?_cons, he]
    · simp [List.findIdx?_cons, he]

end TypeTable

/-- An index has the ids of all types of one sort, by their keys, and no others. -/
def Indexes {κ : Type} [BEq κ] (entry : κ → TypeEntry) (index : List (κ × TypeId))
    (t : TypeTable) : Prop :=
  ∀ k, index.lookup k = t.find? (entry k)

namespace Indexes

variable {κ : Type} [BEq κ] {entry : κ → TypeEntry} {index : List (κ × TypeId)} {t : TypeTable}

/-- Types of other sorts do not matter. -/
theorem add_other (h : Indexes entry index t) {e : TypeEntry} (hne : ∀ k, e ≠ entry k) :
    Indexes entry index (t.add e).1 := by
  intro k
  rw [TypeTable.find?_add, if_neg (hne k), Option.or_none, h k]

/-- A type that the index had no id for is put in front. -/
theorem add_new [LawfulBEq κ] (h : Indexes entry index t) (hinj : Function.Injective entry) {k : κ}
    (hk : index.lookup k = none) :
    Indexes entry ((k, (t.add (entry k)).2) :: index) (t.add (entry k)).1 := by
  intro k'
  rw [TypeTable.find?_add, List.lookup_cons, ← h k']
  by_cases heq : k' = k
  · subst heq
    rw [hk, beq_self_eq_true, if_pos rfl]
    rfl
  · rw [beq_eq_false_iff_ne.mpr heq, if_neg fun he => heq (hinj he).symm, Option.or_none]

/-- A type with a key that is taken is not put in. -/
theorem add_known (h : Indexes entry index t) (hinj : Function.Injective entry) {k : κ}
    {id : TypeId} (hk : index.lookup k = some id) : Indexes entry index (t.add (entry k)).1 := by
  intro k'
  rw [TypeTable.find?_add, ← h k']
  by_cases heq : k' = k
  · subst heq
    rw [hk]
    rfl
  · rw [if_neg fun he => heq (hinj he).symm, Option.or_none]

end Indexes

/-! ## Mirrors -/

/-- An indexed table and a plain one that have the same types under the same ids. -/
structure Mirrors (x : IndexedTable) (t : TypeTable) : Prop where
  entries : x.entries = t.entries.zipIdx.map fun e => ((e.2 : TypeId) + 1, e.1)
  primitives : Indexes .primitive x.primitives t
  arrays : Indexes .array x.arrays t
  methods : Indexes (fun m => .method m.1 m.2) x.methods t
  classes : Indexes .class_ x.classes t
  superclasses : x.superclasses = t.superclasses

namespace Mirrors

variable {x : IndexedTable} {t : TypeTable}

theorem add_snd (h : Mirrors x t) (e : TypeEntry) : (x.add e).2 = (t.add e).2 := by
  show (x.entries.length : Int) + 1 = (t.entries.length : Int) + 1
  rw [h.entries, List.length_map, List.length_zipIdx]

theorem add_entries (h : Mirrors x t) (e : TypeEntry) :
    (x.add e).1.entries =
      (t.add e).1.entries.zipIdx.map fun e => ((e.2 : TypeId) + 1, e.1) := by
  show x.entries ++ [((x.entries.length : Int) + 1, e)] = (t.entries ++ [e]).zipIdx.map _
  rw [List.zipIdx_append, List.map_append, ← h.entries, h.entries, List.length_map,
    List.length_zipIdx, Nat.zero_add]
  rfl

/-- An entry says the id that it has. -/
theorem entry? (h : Mirrors x t) (id : Int) :
    x.entry? id = (t.entry? id).map fun e => (id, e) := by
  rw [IndexedTable.entry?, h.entries, List.length_map, List.length_zipIdx]
  by_cases hid : 1 ≤ id ∧ id ≤ (t.entries.length : Int)
  · obtain ⟨i, rfl, _⟩ := TypeTable.Holds.index (t := t) hid
    have hindex : ((i : Int) + 1).toNat - 1 = i := by omega
    rw [if_pos hid, hindex, TypeTable.entry?_succ, List.getElem?_map, List.getElem?_zipIdx,
      Option.map_map, Nat.zero_add]
    rfl
  · rw [if_neg hid]
    cases he : t.entry? id with
    | none => rfl
    | some e => exact absurd (TypeTable.holds_of_entry he) hid

theorem internPrimitive (h : Mirrors x t) (kind : PrimitiveKind) :
    Mirrors (x.internPrimitive kind).1 (t.internPrimitive kind).1 ∧
      (x.internPrimitive kind).2 = (t.internPrimitive kind).2 := by
  have hfind := h.primitives kind
  rw [IndexedTable.internPrimitive, TypeTable.internPrimitive, TypeTable.intern]
  cases hk : x.primitives.lookup kind with
  | some id =>
    rw [hk] at hfind
    rw [← hfind]
    exact ⟨h, rfl⟩
  | none =>
    have hinj : Function.Injective TypeEntry.primitive := fun _ _ => TypeEntry.primitive.inj
    have hnew := h.primitives.add_new hinj hk
    rw [← h.add_snd] at hnew
    rw [hk] at hfind
    rw [← hfind]
    exact ⟨⟨h.add_entries _, hnew, h.arrays.add_other (by simp), h.methods.add_other (by simp),
      h.classes.add_other (by simp), h.superclasses⟩, h.add_snd _⟩

theorem internClass (h : Mirrors x t) (className : String) :
    Mirrors (x.internClass className).1 (t.internClass className).1 ∧
      (x.internClass className).2 = (t.internClass className).2 := by
  have hinj : Function.Injective TypeEntry.class_ := fun _ _ => TypeEntry.class_.inj
  have hclasses : (x.add (.class_ className)).1.classes = x.classes := rfl
  rw [IndexedTable.internClass, TypeTable.internClass]
  dsimp only
  rw [hclasses]
  cases hk : x.classes.lookup className with
  | some id =>
    exact ⟨⟨h.add_entries _, h.primitives.add_other (by simp), h.arrays.add_other (by simp),
      h.methods.add_other (by simp), h.classes.add_known hinj hk, h.superclasses⟩, h.add_snd _⟩
  | none =>
    have hnew := h.classes.add_new hinj hk
    rw [← h.add_snd] at hnew
    exact ⟨⟨h.add_entries _, h.primitives.add_other (by simp), h.arrays.add_other (by simp),
      h.methods.add_other (by simp), hnew, h.superclasses⟩, h.add_snd _⟩

theorem internMethod (h : Mirrors x t) (result : TypeId) (parameters : List TypeId) :
    Mirrors (x.internMethod result parameters).1 (t.internMethod result parameters).1 ∧
      (x.internMethod result parameters).2 = (t.internMethod result parameters).2 := by
  have hfind := h.methods (result, parameters)
  rw [IndexedTable.internMethod, TypeTable.internMethod, TypeTable.intern]
  cases hk : x.methods.lookup (result, parameters) with
  | some id =>
    rw [hk] at hfind
    rw [← hfind]
    exact ⟨h, rfl⟩
  | none =>
    have hinj : Function.Injective fun m : TypeId × List TypeId => TypeEntry.method m.1 m.2 := by
      intro m m' heq
      exact Prod.ext (TypeEntry.method.inj heq).1 (TypeEntry.method.inj heq).2
    have hnew := h.methods.add_new hinj hk
    rw [← h.add_snd] at hnew
    rw [hk] at hfind
    rw [← hfind]
    exact ⟨⟨h.add_entries _, h.primitives.add_other (by simp), h.arrays.add_other (by simp),
      hnew, h.classes.add_other (by simp), h.superclasses⟩, h.add_snd _⟩

/-- What a call does to tables that are mirrors: it fails for both, for the same reason, or
gives the same id for both and leaves mirrors. -/
inductive SameOutcome : Except TypeFault (IndexedTable × TypeId) →
    Except TypeFault (TypeTable × TypeId) → Prop
  | error (fault : TypeFault) : SameOutcome (.error fault) (.error fault)
  | ok {x : IndexedTable} {t : TypeTable} (h : Mirrors x t) (id : TypeId) :
    SameOutcome (.ok (x, id)) (.ok (t, id))

theorem internArray (h : Mirrors x t) (element : TypeId) :
    SameOutcome (x.internArray element) (t.internArray element) := by
  have hfind := h.arrays element
  rw [IndexedTable.internArray, TypeTable.internArray, h.entry? element]
  cases t.entry? element with
  | none => exact .error _
  | some e =>
    dsimp only [Option.map_some]
    rw [TypeTable.intern]
    cases hk : x.arrays.lookup element with
    | some id =>
      rw [hk] at hfind
      rw [← hfind]
      exact .ok h id
    | none =>
      have hinj : Function.Injective TypeEntry.array := fun _ _ => TypeEntry.array.inj
      have hnew := h.arrays.add_new hinj hk
      have hid := h.add_snd (.array element)
      rw [← hid] at hnew
      rw [hk] at hfind
      rw [← hfind]
      dsimp only
      rw [← Prod.eta (t.add (.array element)), ← hid]
      have hnext : Mirrors
          { (x.add (.array element)).1 with
            arrays := (element, (x.add (.array element)).2) :: x.arrays }
          (t.add (.array element)).1 :=
        ⟨h.add_entries _, h.primitives.add_other (by simp), hnew, h.methods.add_other (by simp),
          h.classes.add_other (by simp), h.superclasses⟩
      exact .ok hnext _

theorem setSuperclass (h : Mirrors x t) (id : TypeId) (superclass : String) :
    SameOutcome (x.setSuperclass id superclass) (t.setSuperclass id superclass) := by
  have hclasses : x.classes.lookup superclass = t.lookupClass superclass := h.classes superclass
  rw [IndexedTable.setSuperclass, TypeTable.setSuperclass, h.entry? id, hclasses]
  cases t.entry? id with
  | none => exact .error _
  | some e =>
    cases e with
    | primitive _ | array _ | method _ _ => exact .error _
    | class_ className =>
      cases t.lookupClass superclass with
      | none => exact .error _
      | some s =>
        have hnext : Mirrors { x with superclasses := (id, s) :: x.superclasses }
            { t with superclasses := (id, s) :: t.superclasses } :=
          ⟨h.entries, h.primitives, h.arrays, h.methods, h.classes,
            congrArg ((id, s) :: ·) h.superclasses⟩
        exact .ok hnext s

/-- No call tells mirrors apart. -/
theorem call (h : Mirrors x t) (c : Call) : SameOutcome (x.call c) (t.call c) := by
  have hpair : ∀ {y : IndexedTable × TypeId} {u : TypeTable × TypeId},
      Mirrors y.1 u.1 ∧ y.2 = u.2 → SameOutcome (.ok y) (.ok u) := by
    intro y u hsame
    obtain ⟨y, id⟩ := y
    obtain ⟨u, id'⟩ := u
    obtain ⟨hmirrors, rfl⟩ := hsame
    exact .ok hmirrors id
  cases c with
  | internPrimitive kind => exact hpair (h.internPrimitive kind)
  | internClass className => exact hpair (h.internClass className)
  | internArray element => exact h.internArray element
  | internMethod result parameters => exact hpair (h.internMethod result parameters)
  | setSuperclass id superclass => exact h.setSuperclass id superclass

theorem after (h : Mirrors x t) (c : Call) : Mirrors (x.after c) (t.after c) := by
  have hcall := h.call c
  unfold IndexedTable.after TypeTable.after
  generalize x.call c = r at hcall ⊢
  generalize t.call c = r' at hcall ⊢
  cases hcall with
  | error => exact h
  | ok hnext => exact hnext

end Mirrors

theorem mirrors_new (name : String) : Mirrors .new (.new name) := by
  have hempty : Mirrors {} { name, entries := [] } :=
    ⟨rfl, fun _ => rfl, fun _ => rfl, fun _ => rfl, fun _ => rfl, rfl⟩
  have hall : ∀ (kinds : List PrimitiveKind) (x : IndexedTable) (t : TypeTable), Mirrors x t →
      Mirrors (kinds.foldl (fun x kind => (x.internPrimitive kind).1) x)
        (kinds.foldl (fun t kind => (t.internPrimitive kind).1) t) := by
    intro kinds
    induction kinds with
    | nil => exact fun _ _ h => h
    | cons kind kinds ih => exact fun x t h => ih _ _ (h.internPrimitive kind).1
  exact hall PrimitiveKind.all _ _ hempty

/-- Tables of both kinds are mirrors after the same calls. -/
theorem mirrors_ofCalls (name : String) (cs : List Call) :
    Mirrors (.ofCalls cs) (.ofCalls name cs) := by
  have hrun : ∀ (cs : List Call) (x : IndexedTable) (t : TypeTable), Mirrors x t →
      Mirrors (cs.foldl IndexedTable.after x) (cs.foldl TypeTable.after t) := by
    intro cs
    induction cs with
    | nil => exact fun _ _ h => h
    | cons c cs ih => exact fun x t h => ih _ _ (h.after c)
  exact hrun cs _ _ (mirrors_new name)

end IcFront
