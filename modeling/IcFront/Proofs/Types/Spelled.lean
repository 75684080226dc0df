import IcFront.Proofs.Types.Sound

/-!
# Types as declared and as described

What a name is declared as has a spelling that takes no table to read
(`DeclaredType.spelling`): a type as written with its brackets, a method by the types of
its parameters and of its result. A sound table describes the type of every symbol with
this spelling (`Sound.describe_symbol`), whatever ids it has given out.
-/

namespace IcFront

/-! ## Spellings of declarations -/

/-- A number of pairs of brackets. -/
def brackets : Nat → String
  | 0 => ""
  | n + 1 => "[]" ++ brackets n

/-- The spelling of a type as written. -/
def TypeRef.spelling (type : TypeRef) : String :=
  type.base.name ++ brackets type.dimension.toNat

/-- The spelling of what a name is declared as. -/
def DeclaredType.spelling (name : String) : DeclaredType → String
  | class_ => name
  | value type => type.spelling
  | method result parameters =>
    "\x7b" ++ ", ".intercalate (parameters.map TypeRef.spelling) ++ " -> " ++ result.spelling ++
      "\x7d"

theorem Primitive.kind_name (p : Primitive) : p.kind.name = p.name := by cases p <;> rfl

namespace TypeTable

variable {t : TypeTable} {id element : Int} {text : String}

/-! ## Describing one type by its parts -/

/-- A type of a sound table is described the same at any depth that its id fits in. -/
theorem Sound.describeWithin_eq (h : t.Sound) {depth : Nat} (hid : t.Holds id)
    (hdepth : id ≤ depth) : t.describeWithin depth id = t.describe id := by
  obtain ⟨text, htext⟩ := h.describeWithin hid hdepth
  obtain ⟨text', htext'⟩ := h.describe hid
  have hdeep := describeWithin_of_le htext (Nat.le_max_left depth (t.size + 1))
  have hdeep' := describeWithin_of_le htext' (Nat.le_max_right depth (t.size + 1))
  rw [htext, htext', ← hdeep, hdeep']

theorem Sound.holds_part (h : t.Sound) {e : TypeEntry} (he : t.entry? id = some e) {part : Int}
    (hpart : part ∈ e.parts) : t.Holds part := by
  obtain ⟨hpos, hlt⟩ := h id e he part hpart
  have := (holds_of_entry he).2
  exact ⟨hpos, by omega⟩

theorem describe_class {className : String} (he : t.entry? id = some (.class_ className)) :
    t.describe id = .ok className := by
  simp only [describe, describeWithin, he]

theorem describe_primitive {kind : PrimitiveKind} (he : t.entry? id = some (.primitive kind)) :
    t.describe id = .ok kind.name := by
  simp only [describe, describeWithin, he]

theorem Sound.describe_array (h : t.Sound) (he : t.entry? id = some (.array element))
    (htext : t.describe element = .ok text) : t.describe id = .ok (text ++ "[]") := by
  have helement := h.holds_part he List.mem_cons_self
  rw [TypeTable.describe, TypeTable.describeWithin, he]
  simp only [h.describeWithin_eq helement helement.2, htext]
  rfl

theorem Sound.describe_method (h : t.Sound) {α : Type} {result : Int} {as : List α}
    {part : α → Int} {spelling : α → String}
    (he : t.entry? id = some (.method result (as.map part)))
    (hparts : ∀ a ∈ as, t.describe (part a) = .ok (spelling a))
    (hresult : t.describe result = .ok text) :
    t.describe id =
      .ok ("\x7b" ++ ", ".intercalate (as.map spelling) ++ " -> " ++ text ++ "\x7d") := by
  have hwithin : ∀ k ∈ result :: as.map part, t.describeWithin t.size k = t.describe k := by
    intro k hk
    have hholds := h.holds_part he hk
    exact h.describeWithin_eq hholds hholds.2
  have hall : (as.map part).mapM (t.describeWithin t.size) = .ok (as.map spelling) := by
    refine mapM_eq_ok fun a ha => ?_
    rw [hwithin _ (List.mem_cons_of_mem _ (List.mem_map_of_mem ha)), hparts a ha]
  rw [TypeTable.describe, TypeTable.describeWithin, he]
  simp only [hwithin result List.mem_cons_self, hresult, hall]
  rfl

/-! ## Describing what was declared -/

theorem describe_base {base : BaseType} (h : t.base? base = some id) :
    t.describe id = .ok base.name := by
  cases base with
  | primitive p =>
    rw [describe_primitive (entry?_of_find? h), Primitive.kind_name]
    rfl
  | user className => exact describe_class (entry?_of_find? h)

theorem Sound.describe_bracketed (h : t.Sound) {n : Nat} {id' : Int}
    (htext : t.describe id = .ok text) (hid' : t.bracketed? id n = some id') :
    t.describe id' = .ok (text ++ brackets n) := by
  induction n generalizing id text with
  | zero =>
    obtain rfl := Option.some.inj hid'
    rw [htext, brackets, String.append_empty]
  | succ n ih =>
    obtain ⟨array, harray, hrest⟩ := Option.bind_eq_some_iff.mp hid'
    rw [ih (h.describe_array (entry?_of_find? harray) htext) hrest, brackets,
      String.append_assoc]

/-- A type of the table is described as it was written. -/
theorem Sound.describe_idOf (h : t.Sound) {type : TypeRef} (hid : t.Holds (t.idOf type)) :
    t.describe (t.idOf type) = .ok type.spelling := by
  unfold idOf at hid ⊢
  cases hfound : (t.base? type.base).bind fun id => t.bracketed? id type.dimension.toNat with
  | none =>
    rw [hfound] at hid
    exact absurd hid.1 (by decide)
  | some id =>
    obtain ⟨base, hbase, hid⟩ := Option.bind_eq_some_iff.mp hfound
    exact h.describe_bracketed (describe_base hbase) hid

/-- The type of a symbol is described as its declaration spells it. -/
theorem Sound.describe_symbol (h : t.Sound) {x : Declaration} (hid : t.Holds (x.symbol t).type) :
    t.describe (x.symbol t).type = .ok (x.type.spelling x.name) := by
  obtain ⟨name, kind, line, type⟩ := x
  cases type with
  | class_ =>
    change t.Holds ((t.lookupClass name).getD 0) at hid
    show t.describe ((t.lookupClass name).getD 0) = _
    cases hfound : t.lookupClass name with
    | none =>
      rw [hfound] at hid
      exact absurd hid.1 (by decide)
    | some id => exact describe_class (entry?_of_find? hfound)
  | value type => exact h.describe_idOf hid
  | method result parameters =>
    change t.Holds ((t.find? (.method (t.idOf result) (parameters.map t.idOf))).getD 0) at hid
    show t.describe ((t.find? (.method (t.idOf result) (parameters.map t.idOf))).getD 0) = _
    cases hfound : t.find? (.method (t.idOf result) (parameters.map t.idOf)) with
    | none =>
      rw [hfound] at hid
      exact absurd hid.1 (by decide)
    | some id =>
      -- The result and the parameters are parts of the type, and so in the table.
      have he := entry?_of_find? hfound
      have hpart : ∀ type ∈ result :: parameters, t.describe (t.idOf type) = .ok type.spelling :=
        fun type htype => h.describe_idOf (h.holds_part he (List.mem_map_of_mem htype))
      exact h.describe_method he (fun type htype => hpart type (List.mem_cons_of_mem _ htype))
        (hpart result List.mem_cons_self)

end TypeTable

end IcFront
