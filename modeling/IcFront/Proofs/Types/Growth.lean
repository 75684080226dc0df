import IcFront.Proofs.Outline
import IcFront.Tables.Draft

/-!
# Growing type tables

Once all classes are registered, a type table only `Grows`: types are added at
its end, none of them a class. What was found in it before is found in it later
(`find?_of_grows`), so that the id a declaration gets while the tables are made
can be read off the finished table (`TypeTable.idOf`, `Declaration.symbol`).

`find_eq` says what looking for a type as written gives: nothing if it names a
class that is not declared, and otherwise its id in any table that the resulting
one grows into. `typeOf_eq` and `signature_eq` say the same of the type of a
declaration and of the signature of a method.
-/

namespace IcFront

variable {ε : Type}

namespace TypeTable

/-- What the addition of types other than classes makes of a table. -/
structure Grows (t t' : TypeTable) : Prop where
  name_eq : t'.name = t.name
  superclasses_eq : t'.superclasses = t.superclasses
  entries_eq : ∃ more, t'.entries = t.entries ++ more ∧ ∀ e ∈ more, e.kind ≠ .class_

theorem Grows.refl (t : TypeTable) : t.Grows t :=
  ⟨rfl, rfl, [], (List.append_nil _).symm, fun _ h => absurd h (by simp)⟩

theorem Grows.trans {t t' t'' : TypeTable} (h : t.Grows t') (h' : t'.Grows t'') : t.Grows t'' := by
  obtain ⟨hname, hsuper, more, hmore, hkind⟩ := h
  obtain ⟨hname', hsuper', more', hmore', hkind'⟩ := h'
  refine ⟨hname'.trans hname, hsuper'.trans hsuper, more ++ more', ?_, ?_⟩
  · rw [hmore', hmore, List.append_assoc]
  · intro e he
    rcases List.mem_append.mp he with he | he
    · exact hkind e he
    · exact hkind' e he

theorem grows_intern (t : TypeTable) {e : TypeEntry} (he : e.kind ≠ .class_) :
    t.Grows (t.intern e).1 := by
  unfold intern
  split
  next => exact .refl t
  next => exact ⟨rfl, rfl, [e], rfl, fun e' h => (List.mem_singleton.mp h) ▸ he⟩

theorem grows_internMethod (t : TypeTable) (result : TypeId) (parameters : List TypeId) :
    t.Grows (t.internMethod result parameters).1 :=
  grows_intern t (by simp [TypeEntry.kind])

theorem find?_eq_map (t : TypeTable) (e : TypeEntry) :
    t.find? e = (t.entries.findIdx? (· == e)).map fun i => Int.ofNat i + 1 := by
  unfold find?
  cases t.entries.findIdx? (· == e) <;> rfl

/-- The first place of a type stays its first place. -/
theorem find?_of_isPrefix {t t' : TypeTable} (h : t.entries <+: t'.entries) {e : TypeEntry}
    {id : TypeId} (hid : t.find? e = some id) : t'.find? e = some id := by
  obtain ⟨more, hmore⟩ := h
  rw [find?_eq_map] at hid ⊢
  obtain ⟨i, hi, rfl⟩ := Option.map_eq_some_iff.mp hid
  rw [← hmore, List.findIdx?_append, hi]
  rfl

theorem Grows.isPrefix {t t' : TypeTable} (h : t.Grows t') : t.entries <+: t'.entries := by
  obtain ⟨more, hmore, _⟩ := h.entries_eq
  exact ⟨more, hmore.symm⟩

theorem find?_of_grows {t t' : TypeTable} (h : t.Grows t') {e : TypeEntry} {id : TypeId}
    (hid : t.find? e = some id) : t'.find? e = some id :=
  find?_of_isPrefix h.isPrefix hid

/-- Growth declares no classes. -/
theorem lookupClass_of_grows {t t' : TypeTable} (h : t.Grows t') (className : String) :
    t'.lookupClass className = t.lookupClass className := by
  obtain ⟨more, hmore, hkind⟩ := h.entries_eq
  have hnone : more.findIdx? (· == TypeEntry.class_ className) = none := by
    rw [List.findIdx?_eq_none_iff]
    intro e he
    rw [beq_eq_false_iff_ne]
    intro heq
    subst heq
    exact hkind _ he rfl
  unfold lookupClass
  rw [find?_eq_map, find?_eq_map, hmore, List.findIdx?_append, hnone, Option.map_none,
    Option.or_none]

/-- A type that was asked for is found where it was put. -/
theorem find?_intern (t : TypeTable) (e : TypeEntry) :
    (t.intern e).1.find? e = some (t.intern e).2 := by
  unfold intern
  split
  next id h => exact h
  next h =>
    rw [find?_eq_map] at h ⊢
    have hnew : [e].findIdx? (· == e) = some 0 := by simp
    rw [add, List.findIdx?_append, Option.map_eq_none_iff.mp h, hnew, Option.none_or,
      Option.map_some, Option.map_some, Nat.zero_add]
    rfl

/-! ## Ids in a finished table -/

/-- The id of a type with a number of brackets after it, if the table has it. -/
def bracketed? (t : TypeTable) (id : TypeId) : (brackets : Nat) → Option TypeId
  | 0 => some id
  | n + 1 => (t.find? (.array id)).bind fun id => t.bracketed? id n

/-- The id of the base of a type, if the table has it. -/
def base? (t : TypeTable) : BaseType → Option TypeId
  | .primitive p => t.find? (.primitive p.kind)
  | .user className => t.lookupClass className

/-- The id of a type as written, or 0, which is no id, if the table does not have
it. -/
def idOf (t : TypeTable) (type : TypeRef) : TypeId :=
  ((t.base? type.base).bind fun id => t.bracketed? id type.dimension.toNat).getD 0

end TypeTable

/-- The id of what a name is declared as. -/
def DeclaredType.id (t : TypeTable) (name : String) : DeclaredType → TypeId
  | class_ => (t.lookupClass name).getD 0
  | value type => t.idOf type
  | method result parameters =>
    (t.find? (.method (t.idOf result) (parameters.map t.idOf))).getD 0

/-- The symbol that a declaration makes, its type by the id in a finished table. -/
def Declaration.symbol (t : TypeTable) (x : Declaration) : Symbol :=
  ⟨x.name, x.kind, x.type.id t x.name, x.line⟩

/-! Ids are a matter of the entries of a table alone. -/

section Entries

variable {t t' : TypeTable} (h : t.entries = t'.entries)
include h

theorem TypeTable.find?_congr (e : TypeEntry) : t.find? e = t'.find? e := by
  rw [t.find?_eq_map, t'.find?_eq_map, h]

theorem TypeTable.base?_congr (base : BaseType) : t.base? base = t'.base? base := by
  cases base <;> exact find?_congr h _

theorem TypeTable.bracketed?_congr (id : TypeId) (n : Nat) :
    t.bracketed? id n = t'.bracketed? id n := by
  induction n generalizing id with
  | zero => rfl
  | succ n ih => simp only [bracketed?, find?_congr h, ih]

theorem TypeTable.idOf_congr (type : TypeRef) : t.idOf type = t'.idOf type := by
  simp only [idOf, base?_congr h, bracketed?_congr h]

theorem Declaration.symbol_congr (x : Declaration) : x.symbol t = x.symbol t' := by
  have hid : t.idOf = t'.idOf := funext (TypeTable.idOf_congr h)
  obtain ⟨name, kind, line, type⟩ := x
  cases type <;>
    simp only [symbol, DeclaredType.id, TypeTable.lookupClass, TypeTable.find?_congr h, hid]

end Entries

/-! ## Looking for types -/

/-- The class names that a table knows are those of the classes declared. -/
def TypeTable.Knows (t : TypeTable) (declared : List String) : Prop :=
  ∀ className, (t.lookupClass className).isSome = declared.contains className

theorem TypeTable.Knows.of_grows {t t' : TypeTable} {declared : List String}
    (h : t.Knows declared) (hg : t.Grows t') : t'.Knows declared := fun className => by
  rw [lookupClass_of_grows hg, h className]

namespace Draft

open TypeTable

theorem grows_withBrackets (t : TypeTable) (id : TypeId) (n : Nat) :
    t.Grows (withBrackets t id n).1 := by
  induction n generalizing t id with
  | zero => exact .refl t
  | succ n ih => exact (grows_intern t (by simp [TypeEntry.kind])).trans (ih _ _)

theorem bracketed?_withBrackets {T : TypeTable} (t : TypeTable) (id : TypeId) (n : Nat)
    (hT : (withBrackets t id n).1.Grows T) :
    T.bracketed? id n = some (withBrackets t id n).2 := by
  induction n generalizing t id with
  | zero => rfl
  | succ n ih =>
    have hfind := find?_of_grows ((grows_withBrackets _ _ n).trans hT)
      (find?_intern t (.array id))
    rw [bracketed?, hfind, Option.bind_some]
    exact ih _ _ hT

/-- Looking for a type changes nothing but the types. -/
theorem find_fst_eq (d : Draft) (type : TypeRef) :
    (d.find type).1 = { d with types := (d.find type).1.types } := by
  cases hb : type.base with
  | primitive p => simp only [find, hb]
  | user className =>
    cases hl : d.types.lookupClass className with
    | none => simp only [find, hb, hl, Option.map_none]
    | some id => simp only [find, hb, hl, Option.map_some]

@[simp] theorem find_scopes (d : Draft) (type : TypeRef) : (d.find type).1.scopes = d.scopes := by
  rw [find_fst_eq]

@[simp] theorem find_events (d : Draft) (type : TypeRef) : (d.find type).1.events = d.events := by
  rw [find_fst_eq]

theorem grows_find (d : Draft) (type : TypeRef) : d.types.Grows (d.find type).1.types := by
  cases hb : type.base with
  | primitive p =>
    simp only [find, hb]
    exact (grows_intern _ (by simp [TypeEntry.kind])).trans (grows_withBrackets _ _ _)
  | user className =>
    cases hl : d.types.lookupClass className with
    | none =>
      simp only [find, hb, hl, Option.map_none]
      exact .refl _
    | some id =>
      simp only [find, hb, hl, Option.map_some]
      exact grows_withBrackets _ _ _

/-- Looking for a type gives its id in the finished table, unless it names a class
that is not declared. -/
theorem find_eq {T : TypeTable} {declared : List String} (d : Draft) (type : TypeRef)
    (hK : d.types.Knows declared) (hT : (d.find type).1.types.Grows T) :
    (d.find type).2 = if type.isKnown declared then some (T.idOf type) else none := by
  unfold TypeRef.isKnown TypeTable.idOf
  cases hb : type.base with
  | primitive p =>
    -- A primitive type is in the table once it was asked for.
    simp only [find, hb] at hT ⊢
    have hbase : T.base? (.primitive p) = some (d.types.internPrimitive p.kind).2 :=
      find?_of_grows ((grows_withBrackets _ _ _).trans hT) (find?_intern _ _)
    rw [if_pos trivial, hbase, Option.bind_some, bracketed?_withBrackets _ _ _ hT]
    rfl
  | user className =>
    cases hl : d.types.lookupClass className with
    | none =>
      have hknown : declared.contains className = false := by rw [← hK, hl]; rfl
      simp only [find, hb, hl, Option.map_none, hknown]
      rfl
    | some id =>
      have hknown : declared.contains className = true := by rw [← hK, hl]; rfl
      simp only [find, hb, hl, Option.map_some] at hT ⊢
      have hbase : T.base? (.user className) = some id := by
        rw [TypeTable.base?, lookupClass_of_grows ((grows_withBrackets _ _ _).trans hT), hl]
      rw [if_pos hknown, hbase, Option.bind_some, bracketed?_withBrackets _ _ _ hT]
      rfl

/-! ## Types of declarations and methods -/

/-- What is wrong so far. -/
def diagnostics (d : Draft) : List Diagnostic := d.events.filterMap Event.diagnostic?

theorem typeOf_eq_of_find (d : Draft) (type : TypeRef) (line : Int) :
    d.typeOf type line =
      (if (d.find type).2.isSome then (d.find type).1
        else (d.find type).1.report (.undefinedClass type.base.name) line, (d.find type).2) := by
  unfold typeOf
  split
  next d' id h => rw [h]; rfl
  next d' h => rw [h]; rfl

@[simp] theorem typeOf_scopes (d : Draft) (type : TypeRef) (line : Int) :
    (d.typeOf type line).1.scopes = d.scopes := by
  rw [typeOf_eq_of_find]
  split <;> exact find_scopes d type

theorem typeOf_types (d : Draft) (type : TypeRef) (line : Int) :
    (d.typeOf type line).1.types = (d.find type).1.types := by
  rw [typeOf_eq_of_find]
  split <;> rfl

theorem grows_typeOf (d : Draft) (type : TypeRef) (line : Int) :
    d.types.Grows (d.typeOf type line).1.types := by
  rw [typeOf_types]
  exact grows_find d type

/-- A known type gets its id, and another is reported. -/
theorem typeOf_eq {T : TypeTable} {declared : List String} (d : Draft) (type : TypeRef)
    (line : Int) (hK : d.types.Knows declared) (hT : (d.typeOf type line).1.types.Grows T) :
    (d.typeOf type line).2 = (if type.isKnown declared then some (T.idOf type) else none) ∧
      (d.typeOf type line).1.diagnostics =
        d.diagnostics ++ (type.undefined? declared line).toList := by
  rw [typeOf_types] at hT
  have hfind := find_eq d type hK hT
  rw [typeOf_eq_of_find]
  refine ⟨hfind, ?_⟩
  unfold diagnostics TypeRef.undefined?
  by_cases hk : type.isKnown declared = true
  · rw [hfind, if_pos hk, if_pos hk]
    simp
  · rw [hfind, if_neg hk, if_neg hk]
    simp [report, note, List.filterMap_append, Event.diagnostic?]

/-- Nothing is reported about the types of parameters, and nothing but the types
changes. -/
theorem parameterTypes_fst_eq (d : Draft) (fs : List Formal) :
    (d.parameterTypes fs).1 = { d with types := (d.parameterTypes fs).1.types } := by
  induction fs generalizing d with
  | nil => rfl
  | cons f fs ih =>
    unfold parameterTypes
    split
    next d' h =>
      have hd' : d' = (d.find f.type).1 := by rw [h]
      rw [hd', find_fst_eq]
    next d' id h =>
      have hd' : d' = (d.find f.type).1 := by rw [h]
      subst hd'
      show ((d.find f.type).1.parameterTypes fs).1 = _
      rw [ih, find_scopes, find_events]

theorem grows_parameterTypes (d : Draft) (fs : List Formal) :
    d.types.Grows (d.parameterTypes fs).1.types := by
  induction fs generalizing d with
  | nil => exact .refl _
  | cons f fs ih =>
    unfold parameterTypes
    split
    next d' h =>
      have hd' : d' = (d.find f.type).1 := by rw [h]
      exact hd' ▸ grows_find d f.type
    next d' id h =>
      have hd' : d' = (d.find f.type).1 := by rw [h]
      subst hd'
      exact (grows_find d f.type).trans (ih _)

/-- The parameters have their types if all of them are known. -/
theorem parameterTypes_eq {T : TypeTable} {declared : List String} (d : Draft) (fs : List Formal)
    (hK : d.types.Knows declared) (hT : (d.parameterTypes fs).1.types.Grows T) :
    (d.parameterTypes fs).2 =
      if fs.all (·.type.isKnown declared) then some (fs.map fun f => T.idOf f.type) else none := by
  induction fs generalizing d with
  | nil => rfl
  | cons f fs ih =>
    unfold parameterTypes at hT ⊢
    split
    next d' h =>
      rw [h] at hT
      have hfind := find_eq d f.type hK (by rw [h]; exact hT)
      rw [h] at hfind
      -- The search stops at the first type that is not known.
      by_cases hk : f.type.isKnown declared = true
      · rw [if_pos hk] at hfind
        exact absurd hfind (by simp)
      · simp [hk]
    next d' id h =>
      rw [h] at hT
      have hd' : d' = (d.find f.type).1 := by rw [h]
      have hrest : d'.types.Grows T := (grows_parameterTypes d' fs).trans hT
      have hfind := find_eq d f.type hK (by rw [h]; exact hrest)
      have hih := ih d' (hK.of_grows (hd' ▸ grows_find d f.type)) hT
      rw [h] at hfind
      by_cases hk : f.type.isKnown declared = true
      · rw [if_pos hk] at hfind
        obtain rfl := Option.some.inj hfind
        show ((d'.parameterTypes fs).2.map (T.idOf f.type :: ·)) = _
        rw [hih, List.all_cons, hk, Bool.true_and]
        split <;> rfl
      · rw [if_neg hk] at hfind
        exact absurd hfind (by simp)

/-- A signature is looked for after the types it is made of. -/
theorem signature_eq_match (d : Draft) (m : Method ε) :
    d.signature m =
      let typed := d.typeOf m.type m.line
      let all := typed.1.parameterTypes m.formals
      match typed.2, all.2 with
      | some result, some parameters =>
        ({ all.1 with types := (all.1.types.internMethod result parameters).1 },
          some (all.1.types.internMethod result parameters).2)
      | _, _ => (all.1, none) := rfl

/-- A signature adds types and reports its result. -/
theorem signature_fst_eq (d : Draft) (m : Method ε) :
    (d.signature m).1 =
      { (d.typeOf m.type m.line).1 with types := (d.signature m).1.types } := by
  have h := parameterTypes_fst_eq (d.typeOf m.type m.line).1 m.formals
  rw [signature_eq_match]
  dsimp only
  split
  next => rw [h]
  next => exact h

@[simp] theorem signature_scopes (d : Draft) (m : Method ε) :
    (d.signature m).1.scopes = d.scopes := by
  rw [signature_fst_eq]
  exact typeOf_scopes d m.type m.line

theorem grows_parameterTypes_signature (d : Draft) (m : Method ε) :
    ((d.typeOf m.type m.line).1.parameterTypes m.formals).1.types.Grows
      (d.signature m).1.types := by
  rw [signature_eq_match]
  dsimp only
  split
  next => exact grows_internMethod _ _ _
  next => exact .refl _

theorem grows_signature (d : Draft) (m : Method ε) : d.types.Grows (d.signature m).1.types :=
  ((grows_typeOf d m.type m.line).trans (grows_parameterTypes _ _)).trans
    (grows_parameterTypes_signature d m)

/-- A method has its signature if all types in it are known. -/
theorem signature_eq {T : TypeTable} {declared : List String} (d : Draft) (m : Method ε)
    (hK : d.types.Knows declared) (hT : (d.signature m).1.types.Grows T) :
    (d.signature m).2 =
      if m.declaration.resolvable declared then some (m.declaration.symbol T).type else none := by
  have hres : m.declaration.resolvable declared =
      (m.type.isKnown declared && m.formals.all (·.type.isKnown declared)) := by
    simp [Declaration.resolvable, Method.declaration, DeclaredType.types, Function.comp_def]
  have hparts := (grows_parameterTypes_signature d m).trans hT
  have htype := (typeOf_eq d m.type m.line hK ((grows_parameterTypes _ _).trans hparts)).1
  have hparams := parameterTypes_eq _ _ (hK.of_grows (grows_typeOf d m.type m.line)) hparts
  have hsig := signature_eq_match d m
  simp only [htype, hparams] at hsig
  rw [hres]
  by_cases hk : m.type.isKnown declared = true
  · by_cases hks : m.formals.all (·.type.isKnown declared) = true
    · -- Only here the signature itself is asked for, after its parts.
      simp only [if_pos hk, if_pos hks] at hsig
      rw [hsig] at hT ⊢
      have hfind := find?_of_grows hT (find?_intern _ _)
      rw [hk, hks, Bool.true_and, if_pos rfl]
      simp only [Declaration.symbol, Method.declaration, DeclaredType.id, List.map_map,
        Function.comp_def, hfind]
      rfl
    · simp only [if_pos hk, if_neg hks] at hsig
      rw [hsig, if_neg (by simp [hks])]
  · simp only [if_neg hk] at hsig
    rw [hsig, if_neg (by simp [hk])]

end Draft

end IcFront
