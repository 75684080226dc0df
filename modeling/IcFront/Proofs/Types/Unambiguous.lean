import IcFront.Proofs.Types.Interning
import IcFront.Proofs.Types.Legible

/-!
# Spellings tell types apart

In a table whose types are made of types that a search finds (`Sound`, `Admits`), and whose
classes have names that look like class names, two types are spelled the same only if they
are the same (`Legible.eq_of_spelling`). Types may nest as they like: there may be arrays of
methods, and methods that take methods.

The reason is that a spelling can be cut off whatever follows it, if that does not go on
like a spelling (`Legible.eq_of_spelling_append`). Brackets are peeled off first
(`exists_nested`). What is left is a name, which ends where its letters do, or the spelling
of a method, of which the parameters and the result are cut off one after the other
(`eq_of_parameters`); they have lesser ids, and on these goes the induction.
-/

namespace IcFront

namespace TypeTable

variable {t : TypeTable} {e e' base : TypeEntry} {id : Int} {m n : Nat}

/-! ## Spellings of types by those of their parts -/

/-- The spelling of the type with an id, or nothing if there is none. -/
def spelled (t : TypeTable) (id : Int) : String :=
  match t.describe id with
  | .ok text => text
  | .error _ => ""

/-- The spelling of a type whose parts are in a table. The type itself may be there or not. -/
def spellingOf (t : TypeTable) : TypeEntry → String
  | .primitive kind => kind.name
  | .class_ className => className
  | .array element => t.spelled element ++ "[]"
  | .method result parameters =>
    "\x7b" ++ ", ".intercalate (parameters.map t.spelled) ++ " -> " ++ t.spelled result ++ "\x7d"

theorem Sound.describe_eq (h : t.Sound) (hid : t.Holds id) :
    t.describe id = .ok (t.spelled id) := by
  obtain ⟨text, htext⟩ := h.describe hid
  rw [spelled, htext]

theorem spelled_of_describe {text : String} (h : t.describe id = .ok text) :
    t.spelled id = text := by
  rw [spelled, h]

theorem Sound.spelled_eq (h : t.Sound) (he : t.entry? id = some e) :
    t.spelled id = t.spellingOf e := by
  have hpart : ∀ part : Int, part ∈ e.parts → t.describe part = .ok (t.spelled part) :=
    fun part hmem => h.describe_eq (h.holds_part he hmem)
  refine spelled_of_describe ?_
  cases e with
  | primitive kind => exact describe_primitive he
  | class_ className => exact describe_class he
  | array element => exact h.describe_array he (hpart element List.mem_cons_self)
  | method result parameters =>
    have he' : t.entry? id = some (.method result (parameters.map fun part => part)) := by
      rw [he, List.map_id']
    exact h.describe_method he' (fun part hmem => hpart part (List.mem_cons_of_mem _ hmem))
      (hpart result List.mem_cons_self)

/-! ## Legible tables -/

/-- An id is the least one of its type. -/
def First (t : TypeTable) (id : Int) : Prop := ∃ e, t.find? e = some id

/-- A type that a table can have without becoming illegible: its parts are what a search
finds, and if it is a class its name looks like one. -/
structure Admits (t : TypeTable) (e : TypeEntry) : Prop where
  parts : ∀ part : Int, part ∈ e.parts → t.First part
  className : ∀ className, e = .class_ className → Mark.Writable (.className className)

/-- A table whose types are spelled in different ways. -/
structure Legible (t : TypeTable) : Prop where
  sound : t.Sound
  admits : ∀ (id : Int) e, t.entry? id = some e → t.Admits e

theorem First.exists_entry (h : t.First id) : ∃ e, t.entry? id = some e ∧ t.find? e = some id := by
  obtain ⟨e, he⟩ := h
  exact ⟨e, entry?_of_find? he, he⟩

theorem First.holds (h : t.First id) : t.Holds id := by
  obtain ⟨e, he, -⟩ := h.exists_entry
  exact holds_of_entry he

/-! ## Brackets -/

/-- A type is another one with a number of brackets after it. -/
inductive Nested (t : TypeTable) (base : TypeEntry) : Nat → TypeEntry → Prop
  | bare : Nested t base 0 base
  | array {n : Nat} {e : TypeEntry} {id : Int} : Nested t base n e → t.find? e = some id →
      Nested t base (n + 1) (.array id)

theorem Nested.unique (h : t.Nested base n e) (h' : t.Nested base n e') : e = e' := by
  induction h generalizing e' with
  | bare =>
    cases h'
    rfl
  | array _ hid ih =>
    cases h' with
    | array hinner hid' =>
      obtain rfl := ih hinner
      rw [Option.some.inj (hid.symm.trans hid')]

theorem brackets_concat (n : Nat) : brackets n ++ "[]" = brackets (n + 1) := by
  induction n with
  | zero => rfl
  | succ n ih => rw [brackets, String.append_assoc, ih, ← brackets]

/-- All brackets that a type ends with, and what stands before them. -/
theorem Legible.exists_nested (h : t.Legible) (bound : Nat) (he : t.Admits e)
    (hbound : ∀ part : Int, part ∈ e.parts → part < bound) : ∃ base n, t.Nested base n e ∧
      base.kind ≠ .array ∧ t.Admits base ∧ (∀ part : Int, part ∈ base.parts → part < bound) ∧
        t.spellingOf e = t.spellingOf base ++ brackets n := by
  induction bound using Nat.strongRecOn generalizing e with
  | ind bound ih =>
    by_cases hkind : e.kind = .array
    · obtain ⟨element, rfl⟩ : ∃ element : Int, e = .array element := by
        cases e <;> simp_all [TypeEntry.kind]
      have hlt : element < bound := hbound element List.mem_cons_self
      obtain ⟨inner, hentry, hfind⟩ := (he.parts element List.mem_cons_self).exists_entry
      obtain ⟨k, hk⟩ := Int.eq_ofNat_of_zero_le (Int.le_of_lt (holds_of_entry hentry).1)
      -- The element is made of types with lesser ids than its own.
      obtain ⟨base, n, hnested, hbase, hadmits, hparts, hspelling⟩ :=
        ih k (by omega) (h.admits element inner hentry) fun part hpart =>
          hk ▸ (h.sound element inner hentry part hpart).2
      refine ⟨base, n + 1, .array hnested hfind, hbase, hadmits, fun part hpart => ?_, ?_⟩
      · have := hparts part hpart
        omega
      · rw [spellingOf, h.sound.spelled_eq hentry, hspelling, String.append_assoc,
          brackets_concat]
    · exact ⟨e, 0, .bare, hkind, he, hbound, by rw [brackets, String.append_empty]⟩

/-! ## Names -/

theorem PrimitiveKind.isLower_name (kind : PrimitiveKind) :
    ∀ c ∈ kind.name.toList, isLower c = true := by
  have hall : kind.name.toList.all isLower = true := by cases kind <;> decide
  exact List.all_eq_true.1 hall

/-- A type that is spelled by a name, or a method. -/
theorem Admits.cases (h : t.Admits e) (hkind : e.kind ≠ .array) :
    (∃ c cs, (t.spellingOf e).toList = c :: cs ∧ ∀ d ∈ c :: cs, isWordChar d = true) ∧
        e.kind ≠ .method ∨
      ∃ result parameters, e = .method result parameters := by
  cases e with
  | primitive kind =>
    refine Or.inl ⟨?_, by simp [TypeEntry.kind]⟩
    have hword : ∀ d ∈ kind.name.toList, isWordChar d = true := by
      intro d hd
      simp [isWordChar, PrimitiveKind.isLower_name kind d hd]
    have hne : kind.name.toList ≠ [] := by cases kind <;> decide
    obtain ⟨c, cs, hcs⟩ := List.exists_cons_of_ne_nil hne
    exact ⟨c, cs, hcs, hcs ▸ hword⟩
  | class_ className =>
    refine Or.inl ⟨?_, by simp [TypeEntry.kind]⟩
    obtain ⟨c, cs, hcs, hupper, hrest⟩ := h.className className rfl
    refine ⟨c, cs, hcs, ?_⟩
    rw [List.forall_mem_cons]
    exact ⟨by simp [isWordChar, hupper], hrest⟩
  | array element => exact absurd rfl hkind
  | method result parameters => exact Or.inr ⟨result, parameters, rfl⟩

/-- No class is called like a primitive type. -/
theorem Admits.eq_of_name (h : t.Admits e) (h' : t.Admits e') (hkind : e.kind ≠ .array)
    (hkind' : e'.kind ≠ .array) (hmethod : e.kind ≠ .method) (hmethod' : e'.kind ≠ .method)
    (hname : t.spellingOf e = t.spellingOf e') : e = e' := by
  have hclash : ∀ (kind : PrimitiveKind) (className : String),
      Mark.Writable (.className className) → kind.name ≠ className := by
    intro kind className hw heq
    obtain ⟨c, cs, hcs, hupper, -⟩ := hw
    have hlower := PrimitiveKind.isLower_name kind c (by rw [heq, hcs]; exact List.mem_cons_self)
    rw [isUpper_of_isLower hlower] at hupper
    cases hupper
  cases e with
  | array element => exact absurd rfl hkind
  | method result parameters => exact absurd rfl hmethod
  | primitive kind =>
    cases e' with
    | array element => exact absurd rfl hkind'
    | method result parameters => exact absurd rfl hmethod'
    | primitive kind' => rw [PrimitiveKind.name_inj hname]
    | class_ className => exact absurd hname (hclash kind className (h'.className className rfl))
  | class_ className =>
    cases e' with
    | array element => exact absurd rfl hkind'
    | method result parameters => exact absurd rfl hmethod'
    | primitive kind =>
      exact absurd hname.symm (hclash kind className (h.className className rfl))
    | class_ className' => exact congrArg TypeEntry.class_ hname

/-! ## Cutting spellings off -/

/-- What stands behind a spelling and is no part of it. -/
def Ended (rest : List Char) : Prop := ∀ c ∈ rest.head?, TypeRef.isSpelling c = false

/-- The spelling of a type can be cut off in one way only. -/
def Cuts (t : TypeTable) (id : Int) : Prop :=
  ∀ (id' : Int) (rest rest' : List Char), t.First id' → Ended rest → Ended rest' →
    (t.spelled id).toList ++ rest = (t.spelled id').toList ++ rest' → id = id' ∧ rest = rest'

section Cut

variable {ids ids' : List Int} {rest rest' : List Char}

theorem Ended.not_word (h : Ended rest) : ∀ c ∈ rest.head?, isWordChar c = false := by
  intro c hc
  have hno := h c hc
  simp only [TypeRef.isSpelling, Bool.or_eq_false_iff] at hno
  exact hno.1.1

theorem not_word_brackets (h : Ended rest) (n : Nat) :
    ∀ c ∈ ((brackets n).toList ++ rest).head?, isWordChar c = false := by
  cases n with
  | zero => exact h.not_word
  | succ n =>
    intro c hc
    simp only [brackets, String.toList_append, List.append_assoc] at hc
    obtain rfl : '[' = c := by simpa using hc
    decide

theorem eq_of_brackets (h : Ended rest) (h' : Ended rest')
    (heq : (brackets m).toList ++ rest = (brackets n).toList ++ rest') : m = n ∧ rest = rest' := by
  have hends : ∀ r : List Char, Ended r → ∀ c ∈ r.head?, (c = '[' || c = ']' : Bool) = false := by
    intro r hr c hc
    have hno := hr c hc
    simp only [TypeRef.isSpelling, Bool.or_eq_false_iff] at hno
    simp only [hno.1.2, hno.2, Bool.or_self]
  have hall : ∀ n, ∀ c ∈ (brackets n).toList, (c = '[' || c = ']' : Bool) = true := by
    intro n c hc
    rcases mem_brackets n c hc with rfl | rfl <;> rfl
  obtain ⟨hbrackets, hrest⟩ := eq_of_cut (hall m) (hall n) (hends rest h) (hends rest' h') heq
  have hlength := congrArg List.length hbrackets
  rw [length_brackets, length_brackets] at hlength
  exact ⟨by omega, hrest⟩

/-- Spellings with a comma and a space before each. -/
def spelledRow (t : TypeTable) (ids : List Int) : List Char :=
  ids.flatMap fun id => ',' :: ' ' :: (t.spelled id).toList

theorem ended_spelledRow (t : TypeTable) (ids : List Int) (rest : List Char) :
    Ended (t.spelledRow ids ++ ' ' :: rest) := by
  intro c hc
  cases ids with
  | nil =>
    obtain rfl : ' ' = c := by simpa [spelledRow] using hc
    decide
  | cons id ids =>
    obtain rfl : ',' = c := by simpa [spelledRow] using hc
    decide

/-- Types in a row are cut off one after the other. -/
theorem eq_of_spelledRow (hcuts : ∀ id ∈ ids, t.Cuts id) (hfirst : ∀ id ∈ ids', t.First id)
    (heq : t.spelledRow ids ++ ' ' :: rest = t.spelledRow ids' ++ ' ' :: rest') :
    ids = ids' ∧ rest = rest' := by
  induction ids generalizing ids' with
  | nil =>
    cases ids' with
    | nil => exact ⟨rfl, (List.cons.inj heq).2⟩
    | cons id' ids' => cases (List.cons.inj heq).1
  | cons id ids ih =>
    cases ids' with
    | nil => cases (List.cons.inj heq).1
    | cons id' ids' =>
      rw [List.forall_mem_cons] at hcuts hfirst
      have htail : (t.spelled id).toList ++ (t.spelledRow ids ++ ' ' :: rest) =
          (t.spelled id').toList ++ (t.spelledRow ids' ++ ' ' :: rest') := by
        simpa [spelledRow] using heq
      obtain ⟨rfl, hrest⟩ := hcuts.1 id' _ _ hfirst.1 (ended_spelledRow t ids rest)
        (ended_spelledRow t ids' rest') htail
      obtain ⟨rfl, hbehind⟩ := ih hcuts.2 hfirst.2 hrest
      exact ⟨rfl, hbehind⟩

/-- No spelling starts with a space. -/
theorem Legible.spelled_ne_space (h : t.Legible) (hid : t.First id) (cs cs' : List Char) :
    (t.spelled id).toList ++ cs ≠ ' ' :: cs' := by
  obtain ⟨e, hentry, -⟩ := hid.exists_entry
  have hadmits := h.admits id e hentry
  have hbound : ∀ part : Int, part ∈ e.parts → part < ((t.size + 1 : Nat) : Int) := by
    intro part hpart
    have := (hadmits.parts part hpart).holds.2
    omega
  obtain ⟨base, n, -, hkind, hbase, -, hspelling⟩ := h.exists_nested _ hadmits hbound
  rw [h.sound.spelled_eq hentry, hspelling, String.toList_append, List.append_assoc]
  rcases hbase.cases hkind with ⟨⟨c, tail, hname, hword⟩, -⟩ | ⟨result, parameters, rfl⟩
  · rw [hname]
    intro hspace
    obtain rfl := (List.cons.inj hspace).1
    cases hword ' ' List.mem_cons_self
  · simp [spellingOf]

theorem toList_intercalate_spelled (t : TypeTable) (id : Int) (ids : List Int) :
    (", ".intercalate ((id :: ids).map t.spelled)).toList =
      (t.spelled id).toList ++ t.spelledRow ids := by
  rw [List.map_cons, toList_intercalate_cons, List.flatMap_map]
  rfl

/-- Parameters are cut off, with the space behind the last of them. -/
theorem Legible.eq_of_parameters (h : t.Legible) (hcuts : ∀ id ∈ ids, t.Cuts id)
    (hids : ∀ id ∈ ids, t.First id) (hids' : ∀ id ∈ ids', t.First id)
    (heq : (", ".intercalate (ids.map t.spelled)).toList ++ ' ' :: rest =
      (", ".intercalate (ids'.map t.spelled)).toList ++ ' ' :: rest') :
    ids = ids' ∧ rest = rest' := by
  cases ids with
  | nil =>
    cases ids' with
    | nil => exact ⟨rfl, (List.cons.inj heq).2⟩
    | cons id' ids' =>
      rw [toList_intercalate_spelled, List.append_assoc] at heq
      exact absurd heq.symm (h.spelled_ne_space (hids' id' List.mem_cons_self) _ _)
  | cons id ids =>
    cases ids' with
    | nil =>
      rw [toList_intercalate_spelled, List.append_assoc] at heq
      exact absurd heq (h.spelled_ne_space (hids id List.mem_cons_self) _ _)
    | cons id' ids' =>
      rw [toList_intercalate_spelled, toList_intercalate_spelled] at heq
      -- With a comma before the first type as well, both are types in a row.
      have hrow : t.spelledRow (id :: ids) ++ ' ' :: rest =
          t.spelledRow (id' :: ids') ++ ' ' :: rest' :=
        congrArg (fun cs => ',' :: ' ' :: cs) heq
      exact eq_of_spelledRow hcuts hids' hrow

/-- What is no array is cut off, if its parts are. -/
theorem Legible.eq_of_base_append (h : t.Legible) (he : t.Admits e) (he' : t.Admits e')
    (hkind : e.kind ≠ .array) (hkind' : e'.kind ≠ .array)
    (hcuts : ∀ part : Int, part ∈ e.parts → t.Cuts part)
    (hrest : ∀ c ∈ rest.head?, isWordChar c = false)
    (hrest' : ∀ c ∈ rest'.head?, isWordChar c = false)
    (heq : (t.spellingOf e).toList ++ rest = (t.spellingOf e').toList ++ rest') :
    e = e' ∧ rest = rest' := by
  have hbrace : ∀ result parameters, ∃ cs,
      (t.spellingOf (.method result parameters)).toList = '\x7b' :: cs := by
    intro result parameters
    simp only [spellingOf, String.toList_append, List.append_assoc]
    exact ⟨_, rfl⟩
  -- A method is told from a name by the brace that it starts with.
  rcases he.cases hkind with ⟨⟨c, cs, hname, hword⟩, hmethod⟩ | ⟨result, parameters, rfl⟩
  · rcases he'.cases hkind' with ⟨⟨c', cs', hname', hword'⟩, hmethod'⟩ | ⟨result', parameters', rfl⟩
    · obtain ⟨hsame, hrest⟩ := eq_of_cut (hname ▸ hword) (hname' ▸ hword') hrest hrest' heq
      exact ⟨he.eq_of_name he' hkind hkind' hmethod hmethod' (String.toList_inj.mp hsame), hrest⟩
    · obtain ⟨tail, htail⟩ := hbrace result' parameters'
      rw [hname, htail] at heq
      obtain rfl := (List.cons.inj heq).1
      cases hword _ List.mem_cons_self
  · rcases he'.cases hkind' with ⟨⟨c', cs', hname', hword'⟩, -⟩ | ⟨result', parameters', rfl⟩
    · obtain ⟨tail, htail⟩ := hbrace result parameters
      rw [hname', htail] at heq
      obtain rfl := (List.cons.inj heq).1
      cases hword' _ List.mem_cons_self
    · have hsplit : (", ".intercalate (parameters.map t.spelled)).toList ++
            ' ' :: ("-> ".toList ++ ((t.spelled result).toList ++ '\x7d' :: rest)) =
          (", ".intercalate (parameters'.map t.spelled)).toList ++
            ' ' :: ("-> ".toList ++ ((t.spelled result').toList ++ '\x7d' :: rest')) := by
        simpa [spellingOf] using heq
      have hcut := List.forall_mem_cons.mp hcuts
      have hfirst := List.forall_mem_cons.mp he.parts
      have hfirst' := List.forall_mem_cons.mp he'.parts
      obtain ⟨rfl, hresult⟩ := h.eq_of_parameters hcut.2 hfirst.2 hfirst'.2 hsplit
      have hended : ∀ r : List Char, Ended ('\x7d' :: r) := by
        intro r c hc
        obtain rfl : '\x7d' = c := by simpa using hc
        decide
      obtain ⟨rfl, hbehind⟩ := hcut.1 result' _ _ hfirst'.1 (hended rest) (hended rest')
        (List.append_cancel_left hresult)
      exact ⟨rfl, (List.cons.inj hbehind).2⟩

/-- A spelling is cut off whatever stands behind it, if that is no part of a spelling. -/
theorem Legible.eq_of_spelling_append (h : t.Legible) (bound : Nat) (he : t.Admits e)
    (he' : t.Admits e') (hbound : ∀ part : Int, part ∈ e.parts → part < bound) (hrest : Ended rest)
    (hrest' : Ended rest')
    (heq : (t.spellingOf e).toList ++ rest = (t.spellingOf e').toList ++ rest') :
    e = e' ∧ rest = rest' := by
  induction bound using Nat.strongRecOn generalizing e e' rest rest' with
  | ind bound ih =>
    have hbound' : ∀ part : Int, part ∈ e'.parts → part < ((t.size + 1 : Nat) : Int) := by
      intro part hpart
      have := (he'.parts part hpart).holds.2
      omega
    obtain ⟨base, n, hnested, hkind, hbase, hparts, hspelling⟩ := h.exists_nested bound he hbound
    obtain ⟨base', n', hnested', hkind', hbase', -, hspelling'⟩ := h.exists_nested _ he' hbound'
    rw [hspelling, hspelling', String.toList_append, String.toList_append, List.append_assoc,
      List.append_assoc] at heq
    -- The parts have lesser ids than the bound, and their parts lesser ones yet.
    have hcuts : ∀ part : Int, part ∈ base.parts → t.Cuts part := by
      intro part hpart id' r r' hid' hr hr' hsame
      obtain ⟨x, hx, hfind⟩ := (hbase.parts part hpart).exists_entry
      obtain ⟨y, hy, hfind'⟩ := hid'.exists_entry
      obtain ⟨k, hk⟩ := Int.eq_ofNat_of_zero_le (Int.le_of_lt (holds_of_entry hx).1)
      have hlt := hparts part hpart
      rw [h.sound.spelled_eq hx, h.sound.spelled_eq hy] at hsame
      obtain ⟨rfl, hbehind⟩ := ih k (by omega) (h.admits part x hx) (h.admits id' y hy)
        (fun inner hinner => hk ▸ (h.sound part x hx inner hinner).2) hr hr' hsame
      exact ⟨Option.some.inj (hfind.symm.trans hfind'), hbehind⟩
    obtain ⟨rfl, hbehind⟩ := h.eq_of_base_append hbase hbase' hkind hkind' hcuts
      (not_word_brackets hrest n) (not_word_brackets hrest' n') heq
    obtain ⟨rfl, hends⟩ := eq_of_brackets hrest hrest' hbehind
    exact ⟨hnested.unique hnested', hends⟩

/-- Types that are spelled the same are the same. -/
theorem Legible.eq_of_spelling (h : t.Legible) (he : t.Admits e) (he' : t.Admits e')
    (heq : t.spellingOf e = t.spellingOf e') : e = e' := by
  have hbound : ∀ part : Int, part ∈ e.parts → part < ((t.size + 1 : Nat) : Int) := by
    intro part hpart
    have := (he.parts part hpart).holds.2
    omega
  have hended : Ended [] := fun c hc => absurd hc (by simp)
  exact (h.eq_of_spelling_append _ he he' hbound hended hended
    (congrArg (fun text => text.toList ++ []) heq)).1

/-- Types that are described in the same way are the same. -/
theorem Legible.eq_of_describe (h : t.Legible) {i j : Int} {text : String}
    (hi : t.entry? i = some e) (hj : t.entry? j = some e') (htext : t.describe i = .ok text)
    (htext' : t.describe j = .ok text) : e = e' := by
  refine h.eq_of_spelling (h.admits i e hi) (h.admits j e' hj) ?_
  rw [← h.sound.spelled_eq hi, ← h.sound.spelled_eq hj, spelled_of_describe htext,
    spelled_of_describe htext']

end Cut

end TypeTable

end IcFront
