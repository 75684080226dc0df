import IcFront.Proofs.Types.Unambiguous

/-!
# Types of which no two are described alike

A table is made by calls. It is legible if the calls give no class name twice, and ask for
methods only of types that are there by then (`Grounded`): such calls keep a table sound
(`Sound.foldl_after`), and then every type has one id only (`Consed.eq_of_nodup`), so that a
search finds all parts of all types. So every id has a description, and no two ids have the
same one (`describe_injective`).
-/

namespace IcFront

/-! ## Names of classes -/

/-- The name of a class. -/
def TypeEntry.className? : TypeEntry → Option String
  | class_ className => some className
  | _ => none

namespace Call

/-- The name that a call gives to a class. -/
def className? : Call → Option String
  | internClass className => some className
  | _ => none

/-- The ids that a call for a method is made with, which are not looked up. -/
def parts : Call → List TypeId
  | internMethod result parameters => result :: parameters
  | _ => []

end Call

namespace TypeTable

variable {t : TypeTable} {c : Call} {cs : List Call} {name : String}

/-! ## What calls add -/

instance (t : TypeTable) (id : Int) : Decidable (t.Holds id) :=
  inferInstanceAs (Decidable (_ ∧ _))

/-- Calls that ask for methods only of types that are there by then. -/
def Grounded (t : TypeTable) : List Call → Prop
  | [] => True
  | c :: cs => (∀ part ∈ c.parts, t.Holds part) ∧ (t.after c).Grounded cs

instance decidableGrounded : (t : TypeTable) → (cs : List Call) → Decidable (t.Grounded cs)
  | _, [] => isTrue trivial
  | t, c :: cs =>
    have := decidableGrounded (t.after c) cs
    inferInstanceAs (Decidable (_ ∧ _))

/-- A call adds no type, in particular no class, or the one that it asks for. -/
theorem entries_after (t : TypeTable) (c : Call) :
    ((t.after c).entries = t.entries ∧ c.className? = none) ∨
      ∃ e, c.requested? = some e ∧ (t.after c).entries = t.entries ++ [e] ∧
        ∀ element, e = .array element → t.Holds element := by
  -- A type other than a class may be there already.
  have hintern : ∀ e, (t.intern e).1.entries = t.entries ∨
      (t.intern e).1.entries = t.entries ++ [e] := by
    intro e
    rw [intern]
    cases t.find? e with
    | some id => exact Or.inl rfl
    | none => exact Or.inr rfl
  unfold after
  cases c with
  | internPrimitive kind =>
    rcases hintern (.primitive kind) with heq | heq
    · exact Or.inl ⟨heq, rfl⟩
    · exact Or.inr ⟨_, rfl, heq, fun _ h => absurd h (by simp)⟩
  | internClass className => exact Or.inr ⟨_, rfl, rfl, fun _ h => absurd h (by simp)⟩
  | internMethod result parameters =>
    rcases hintern (.method result parameters) with heq | heq
    · exact Or.inl ⟨heq, rfl⟩
    · exact Or.inr ⟨_, rfl, heq, fun _ h => absurd h (by simp)⟩
  | internArray element =>
    by_cases helement : t.Holds element
    · obtain ⟨x, hx⟩ := helement.entry?
      rw [call, internArray, hx]
      rcases hintern (.array element) with heq | heq
      · exact Or.inl ⟨heq, rfl⟩
      · exact Or.inr ⟨_, rfl, heq, fun _ h => TypeEntry.array.inj h ▸ helement⟩
    · rw [call, internArray_of_not_holds helement]
      exact Or.inl ⟨rfl, rfl⟩
  | setSuperclass id superclass =>
    refine Or.inl ⟨?_, rfl⟩
    rw [call, setSuperclass]
    cases t.entry? id with
    | none => rfl
    | some e =>
      cases e with
      | primitive _ | array _ | method _ _ => rfl
      | class_ className => cases t.lookupClass superclass <;> rfl

/-- One call keeps a table sound. -/
theorem Sound.after (h : t.Sound) (hparts : ∀ part ∈ c.parts, t.Holds part) :
    (t.after c).Sound := by
  rcases t.entries_after c with ⟨heq, -⟩ | ⟨e, hc, heq, helement⟩
  · exact h.of_entries heq
  · refine Sound.of_entries (h.append fun part hpart => ?_) heq
    cases e with
    | primitive _ | class_ _ => exact absurd hpart List.not_mem_nil
    | array element => exact List.mem_singleton.mp hpart ▸ helement element rfl
    | method result parameters =>
      obtain rfl : c = .internMethod result parameters := by
        cases c <;> simp_all [Call.requested?]
      exact hparts part hpart

/-- The names of the classes of a table, in the order of ids. -/
def classNames (t : TypeTable) : List String := t.entries.filterMap TypeEntry.className?

theorem classNames_after (t : TypeTable) (c : Call) :
    (t.after c).classNames = t.classNames ++ c.className?.toList := by
  rcases t.entries_after c with ⟨heq, hc⟩ | ⟨e, hc, heq, -⟩
  · rw [classNames, heq, hc, Option.toList_none, List.append_nil, classNames]
  · have hname : e.className? = c.className? := by
      cases c <;> cases hc <;> rfl
    rw [classNames, heq, List.filterMap_append, classNames, List.filterMap_cons,
      List.filterMap_nil, hname]
    cases c.className? <;> rfl

/-- Calls keep a table sound, and add the classes that they ask for. -/
theorem Sound.foldl_after (h : t.Sound) (hcs : t.Grounded cs) :
    Sound (cs.foldl TypeTable.after t) ∧
      classNames (cs.foldl TypeTable.after t) = t.classNames ++ cs.filterMap Call.className? := by
  induction cs generalizing t with
  | nil => exact ⟨h, (List.append_nil _).symm⟩
  | cons c cs ih =>
    obtain ⟨hsound, hnames⟩ := ih (h.after hcs.1) hcs.2
    refine ⟨hsound, ?_⟩
    rw [List.foldl_cons, hnames, classNames_after, List.append_assoc, List.filterMap_cons]
    cases c.className? <;> rfl

/-! ## One id for each type -/

/-- If no two classes have one name, every type has one id only. -/
theorem Consed.eq_of_nodup (h : t.Consed) (hdistinct : t.classNames.Nodup) {i j : Int}
    {e : TypeEntry} (hi : t.entry? i = some e) (hj : t.entry? j = some e) : i = j := by
  by_cases hkind : e.kind = .class_
  · obtain ⟨className, hname⟩ : ∃ className, e.className? = some className := by
      cases e <;> simp_all [TypeEntry.kind, TypeEntry.className?]
    obtain ⟨m, rfl, hm⟩ := (holds_of_entry hi).index
    obtain ⟨n, rfl, hn⟩ := (holds_of_entry hj).index
    rw [entry?_succ] at hi hj
    obtain ⟨hm, hi⟩ := List.getElem?_eq_some_iff.mp hi
    obtain ⟨hn, hj⟩ := List.getElem?_eq_some_iff.mp hj
    have hpairs := List.pairwise_iff_getElem.mp (List.pairwise_filterMap.mp hdistinct)
    rcases Nat.lt_trichotomy m n with hlt | heq | hlt
    · exact absurd rfl (hpairs m n hm hn hlt className (hi ▸ hname) className (hj ▸ hname))
    · rw [heq]
    · exact absurd rfl (hpairs n m hn hm hlt className (hj ▸ hname) className (hi ▸ hname))
  · exact h.eq_of_entry? hkind hi hj

/-- A table of which no two classes have one name is legible. -/
theorem Consed.legible (h : t.Consed) (hsound : t.Sound) (hdistinct : t.classNames.Nodup)
    (hname : ∀ className ∈ t.classNames, Mark.Writable (.className className)) : t.Legible where
  sound := hsound
  admits id e he := by
    refine ⟨fun part hpart => ?_, fun className heq => ?_⟩
    · obtain ⟨x, hx⟩ := Holds.entry? (hsound.holds_part he hpart)
      obtain ⟨first, hfirst⟩ := exists_find? hx
      obtain rfl := h.eq_of_nodup hdistinct hx (entry?_of_find? hfirst)
      exact ⟨x, hfirst⟩
    · subst heq
      obtain ⟨i, rfl, -⟩ := (holds_of_entry he).index
      rw [entry?_succ] at he
      exact hname className (List.mem_filterMap.mpr ⟨_, List.mem_of_getElem? he, rfl⟩)

theorem describe_of_not_holds {id : Int} (h : ¬ t.Holds id) :
    t.describe id = .error (.unknownId id) := by
  rw [describe, describeWithin]
  cases he : t.entry? id with
  | none => rfl
  | some e => exact absurd (holds_of_entry he) h

/-- After calls that give classes different names, and ask for methods of types that are there,
every type has a spelling, and no other type has the same one. -/
theorem describe_injective
    (hname : ∀ className ∈ cs.filterMap Call.className?, Mark.Writable (.className className))
    (hdistinct : (cs.filterMap Call.className?).Nodup) (hcs : (new name).Grounded cs) :
    (∀ id : Int, if (ofCalls name cs).Holds id
      then ∃ text, (ofCalls name cs).describe id = .ok text
      else (ofCalls name cs).describe id = .error (.unknownId id)) ∧
    ∀ (i j : Int) text, (ofCalls name cs).describe i = .ok text →
      (ofCalls name cs).describe j = .ok text → i = j := by
  obtain ⟨hsound, hnames⟩ := (sound_new name).foldl_after hcs
  have hnames : (ofCalls name cs).classNames = cs.filterMap Call.className? := hnames
  have hconsed := consed_ofCalls name cs
  have hlegible := hconsed.legible hsound (hnames ▸ hdistinct) (hnames ▸ hname)
  constructor
  · intro id
    split
    next hid => exact hsound.describe hid
    next hid => exact describe_of_not_holds hid
  · intro i j text hi hj
    have hholds : ∀ id : Int, TypeTable.describe (ofCalls name cs) id = .ok text →
        (ofCalls name cs).Holds id := by
      intro id hid
      by_contra hnot
      rw [describe_of_not_holds hnot] at hid
      cases hid
    obtain ⟨e, he⟩ := Holds.entry? (hholds i hi)
    obtain ⟨e', he'⟩ := Holds.entry? (hholds j hj)
    obtain rfl := hlegible.eq_of_describe he he' hi hj
    exact hconsed.eq_of_nodup (hnames ▸ hdistinct) he he'

/-- Arrays of methods and methods that take methods: id 9 is `{int, A -> void}[]`, and id 11 is
`{{int, A -> void}[], { -> A} -> A}`. A call for arrays of what is not there fails. -/
theorem describe_injective_nested :
    let t := ofCalls "nested" [.internClass "A", .internArray 20, .internArray 6,
      .internMethod 5 [1, 6], .internArray 8, .internMethod 6 [], .internMethod 6 [9, 10]]
    t.describe 9 = .ok "\x7bint, A -> void\x7d[]" ∧
      t.describe 11 = .ok "\x7b\x7bint, A -> void\x7d[], \x7b -> A\x7d -> A\x7d" ∧
      (∀ id : Int, if t.Holds id then ∃ text, t.describe id = .ok text
        else t.describe id = .error (.unknownId id)) ∧
      ∀ (i j : Int) text, t.describe i = .ok text → t.describe j = .ok text → i = j := by
  have hname : ∀ className ∈ ["A"], Mark.Writable (.className className) := by
    intro className hmem
    rw [List.mem_singleton.mp hmem]
    exact ⟨'A', [], rfl, rfl, fun d hd => absurd hd List.not_mem_nil⟩
  exact ⟨rfl, rfl, describe_injective hname (by decide) (by decide)⟩

end TypeTable

end IcFront
