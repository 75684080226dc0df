import IcFront.Proofs.Grammar.TypesRead
import IcFront.Proofs.Tables.Asked

/-!
# Arrays of void

The parser refuses void wherever there is a value: fields, parameters, local variables
and created arrays are not void, whatever brackets follow (`Program.Lawful`). The result
of a method is not looked at, and so may be void with brackets after it.

No other array of void comes into a type table. `TypeTable.Wraps` says how many brackets
stand around a type, and around a primitive type stand as many as some declaration
writes (`exists_wraps_iff`). Around void these are the results of methods
(`void_arrays_returned`).
-/

namespace IcFront

variable {ε : Type}

/-! ## Brackets around a type -/

/-- The type that a base spells. -/
def BaseType.entry : BaseType → TypeEntry
  | primitive p => .primitive p.kind
  | user className => .class_ className

theorem BaseType.entry_kind (b : BaseType) : b.entry.kind ≠ .array := by
  cases b <;> simp [entry, TypeEntry.kind]

/-- Among bases a primitive type is spelled by one only. -/
theorem BaseType.eq_of_entry {b : BaseType} {prim : Primitive}
    (h : b.entry = .primitive prim.kind) : b = .primitive prim := by
  cases b with
  | user className => cases h
  | primitive p =>
    have hkind : p.kind = prim.kind := TypeEntry.primitive.inj h
    cases p <;> cases prim <;> first | rfl | cases hkind

namespace TypeTable

variable {t : TypeTable} {base id element : TypeId} {e e' : TypeEntry} {m n : Nat}

/-- An id is that of a type with a number of brackets around it. -/
inductive Wraps (t : TypeTable) (e : TypeEntry) : Nat → TypeId → Prop
  | bare {id : TypeId} : t.entry? id = some e → Wraps t e 0 id
  | array {n : Nat} {element id : TypeId} : Wraps t e n element →
      t.entry? id = some (.array element) → Wraps t e (n + 1) id

theorem base?_eq (t : TypeTable) (b : BaseType) : t.base? b = t.find? b.entry := by
  cases b <;> rfl

theorem Wraps.of_bracketed (hbase : t.entry? base = some e)
    (h : t.bracketed? base n = some id) : t.Wraps e n id := by
  induction n generalizing id with
  | zero =>
    obtain rfl := Option.some.inj h
    exact .bare hbase
  | succ n ih =>
    rw [bracketed?_succ] at h
    obtain ⟨element, helement, harray⟩ := Option.bind_eq_some_iff.mp h
    exact .array (ih helement) (entry?_of_find? harray)

/-- What stands inside all brackets is determined, and how many there are. -/
theorem Wraps.unique (h : t.Wraps e n id) (h' : t.Wraps e' m id) (he : e.kind ≠ .array)
    (he' : e'.kind ≠ .array) : e = e' ∧ n = m := by
  induction h generalizing m with
  | bare hid =>
    cases h' with
    | bare hid' => exact ⟨Option.some.inj (hid.symm.trans hid'), rfl⟩
    | array _ hid' =>
      obtain rfl := Option.some.inj (hid.symm.trans hid')
      exact absurd rfl he
  | array _ hid ih =>
    cases h' with
    | bare hid' =>
      obtain rfl := Option.some.inj (hid'.symm.trans hid)
      exact absurd rfl he'
    | array hinner hid' =>
      obtain rfl := TypeEntry.array.inj (Option.some.inj (hid'.symm.trans hid))
      obtain ⟨heq, rfl⟩ := ih hinner
      exact ⟨heq, rfl⟩

/-- Where there are brackets, there are fewer. -/
theorem bracketed?_of_le (h : t.bracketed? base n = some id) (hle : m ≤ n) :
    ∃ id', t.bracketed? base m = some id' := by
  obtain ⟨k, rfl⟩ := Nat.exists_eq_add_of_le hle
  clear hle
  induction k generalizing id with
  | zero => exact ⟨id, h⟩
  | succ k ih =>
    rw [← Nat.add_assoc, bracketed?_succ] at h
    obtain ⟨element, helement, -⟩ := Option.bind_eq_some_iff.mp h
    exact ih helement

theorem mem_of_entry? (h : t.entry? id = some e) : e ∈ t.entries := by
  obtain ⟨i, rfl, -⟩ := (holds_of_entry h).index
  exact List.mem_of_getElem? ((entry?_succ t i).symm.trans h)

end TypeTable

namespace SymbolTables

/-- Around a primitive type stand as many brackets as a program writes somewhere. -/
theorem exists_wraps_iff (p : Program ε) (name : String) (prim : Primitive) {n : Nat}
    (hn : 0 < n) :
    (∃ id, (ofProgram p name).1.types.Wraps (.primitive prim.kind) n id) ↔
      ∃ type ∈ p.types, type.base = .primitive prim ∧ (n : Int) ≤ type.dimension := by
  constructor
  · intro hex
    obtain ⟨id, hid⟩ := hex
    cases hid with
    | bare => exact absurd hn (Nat.lt_irrefl 0)
    | @array k element _ hinner hid =>
      obtain ⟨type, htype, base, m, hbase, hlt, helement⟩ :=
        arraysFrom_ofProgram p name element (TypeTable.mem_of_entry? hid)
      rw [TypeTable.base?_eq] at hbase
      have hwraps := TypeTable.Wraps.of_bracketed (TypeTable.entry?_of_find? hbase) helement
      obtain ⟨hentry, rfl⟩ := hwraps.unique hinner type.base.entry_kind (by simp [TypeEntry.kind])
      exact ⟨type, htype, BaseType.eq_of_entry hentry, by omega⟩
  · intro hex
    obtain ⟨type, htype, hbase, hle⟩ := hex
    have hknown : type.isKnown p.declared = true := by rw [TypeRef.isKnown, hbase]
    obtain ⟨base, hfound, hall⟩ := (holds_idOf name htype hknown).bracketed
    rw [TypeTable.base?_eq, hbase] at hfound
    obtain ⟨id, hid⟩ := TypeTable.bracketed?_of_le hall (m := n) (by omega)
    exact ⟨id, .of_bracketed (TypeTable.entry?_of_find? hfound) hid⟩

end SymbolTables

/-- A program that is read declares nothing void but methods, and creates no array of
void. In its type table there are brackets around void where a method has them in its
result, as many as there, and nowhere else. -/
theorem SymbolTables.void_arrays_returned {source : String} {p : Program Expr}
    (h : Program.parse source = .ok p) (name : String) :
    p.Lawful ∧ ∀ n > 0,
      (∃ id, (ofProgram p name).1.types.Wraps (.primitive .void) n id) ↔
        ∃ c ∈ p.classes, ∃ m ∈ c.methods, m.type.isVoid = true ∧ (n : Int) ≤ m.type.dimension := by
  have hlawful := Program.lawful_of_parse h
  refine ⟨hlawful, fun n hn => (exists_wraps_iff p name .void hn).trans ?_⟩
  have hvoid : ∀ type : TypeRef, type.base = .primitive .void ↔ type.isVoid = true :=
    fun type => (decide_eq_true_iff).symm
  constructor
  · intro hex
    obtain ⟨type, hmem, hbase, hle⟩ := hex
    obtain ⟨c, hc, m, hm, rfl, hres⟩ := hlawful.void_types.mp ⟨hmem, (hvoid type).mp hbase⟩
    exact ⟨c, hc, m, hm, hres, hle⟩
  · intro hex
    obtain ⟨c, hc, m, hm, hres, hle⟩ := hex
    exact ⟨m.type, (hlawful.void_types.mpr ⟨c, hc, m, hm, rfl, hres⟩).1, (hvoid m.type).mpr hres,
      hle⟩

/-- A program with void methods, one of them with two pairs of brackets, and arrays of
other types. -/
theorem SymbolTables.void_arrays_returned_twice :
    let text := "class A \x7b int[] x; void f(A[] a) \x7b a = new A[2]; \x7d void[][] g() \x7b \x7d \x7d"
    ∃ p : Program Expr, Program.parse text = .ok p ∧
      p.Lawful ∧ ∀ n > 0,
        (∃ id, (ofProgram p "a.ic").1.types.Wraps (.primitive .void) n id) ↔
          ∃ c ∈ p.classes, ∃ m ∈ c.methods,
            m.type.isVoid = true ∧ (n : Int) ≤ m.type.dimension := by
  intro text
  have hok : (Program.parse text).isOk = true := by decide +kernel
  cases hp : Program.parse text with
  | ok p => exact ⟨p, rfl, void_arrays_returned hp "a.ic"⟩
  | error e =>
    rw [hp] at hok
    cases hok

/-- A method may be declared to return an array of void, which is a type of the table
then. -/
theorem SymbolTables.void_array_of_parse : ∃ p : Program Expr,
    Program.parse "class A \x7b void [ ] f ( ) \x7b \x7d \x7d" = .ok p ∧
    (∃ c ∈ p.classes, ∃ m ∈ c.methods, m.type = ⟨.primitive .void, 1, 1⟩) ∧
    ∃ id, (ofProgram p "a.ic").1.types.Wraps (.primitive .void) 1 id := by
  let read (p : Program Expr) : Bool :=
    decide (∃ c ∈ p.classes, ∃ m ∈ c.methods, m.type = ⟨.primitive .void, 1, 1⟩) &&
      decide ((ofProgram p "a.ic").1.types.entry? 5 = some (.primitive .void)) &&
      decide ((ofProgram p "a.ic").1.types.entry? 7 = some (.array 5))
  have hread : (Program.parse "class A \x7b void [ ] f ( ) \x7b \x7d \x7d").toOption.any read = true := by
    decide +kernel
  cases hp : Program.parse "class A \x7b void [ ] f ( ) \x7b \x7d \x7d" with
  | ok p =>
    rw [hp] at hread
    have htest : read p = true := hread
    simp only [read, Bool.and_eq_true, decide_eq_true_eq] at htest
    obtain ⟨⟨hmethod, hvoid⟩, harray⟩ := htest
    exact ⟨p, rfl, hmethod, 7, .array (.bare hvoid) harray⟩
  | error e =>
    rw [hp] at hread
    cases hread

end IcFront
