import IcFront.Proofs.Types.Unambiguous
import Mathlib.Data.List.Nodup

/-!
# Listings of legible tables

A listing has one line for each type, the types of a sort together and in the order of
their ids (`perm_listedIds`). A line is an id, a label that says the sort, the spelling of the
type, and a note on the superclass if the type is a class that has one (`Sound.line_eq`).

From the listing of a legible table the table can be read back
(`Legible.eq_of_listing`). It is cut into lines, and a line into its parts. What the
spellings mean is known from the first id on: a spelling is made of those of types with
lesser ids, which are known by then, and in a legible table it says which types these are
(`Legible.eq_of_spelling`).
-/

namespace IcFront

/-! ## Numbers as they are written -/

theorem toString_injective {m n : Nat} (h : toString m = toString n) : m = n := by
  rw [← digitsValue_toString m, h, digitsValue_toString]

namespace TypeTable

variable {t t' : TypeTable} {e e' : TypeEntry} {id : Int} {kind kind' : TypeKind}

/-! ## The ids of a listing -/

theorem mem_idsOf : id ∈ t.idsOf kind ↔ ∃ e, t.entry? id = some e ∧ e.kind = kind := by
  constructor
  · intro h
    obtain ⟨⟨e, i⟩, hmem, rfl⟩ := List.mem_map.mp h
    obtain ⟨hmem, hkind⟩ := List.mem_filter.mp hmem
    rw [List.mk_mem_zipIdx_iff_getElem?] at hmem
    exact ⟨e, (entry?_succ t i).trans hmem, eq_of_beq hkind⟩
  · intro h
    obtain ⟨e, he, hkind⟩ := h
    obtain ⟨i, rfl, -⟩ := (holds_of_entry he).index
    rw [entry?_succ, ← List.mk_mem_zipIdx_iff_getElem?] at he
    exact List.mem_map.mpr ⟨(e, i), List.mem_filter.mpr ⟨he, beq_iff_eq.mpr hkind⟩, rfl⟩

/-- The ids of a sort are in increasing order. -/
theorem pairwise_idsOf (t : TypeTable) (kind : TypeKind) : (t.idsOf kind).Pairwise (· < ·) := by
  have hindexes : (t.entries.zipIdx.map Prod.snd).Pairwise (· < ·) := by
    rw [List.zipIdx_map_snd]
    exact List.pairwise_lt_range'
  rw [List.pairwise_map] at hindexes
  refine List.pairwise_map.mpr ((hindexes.filter _).imp fun {x y} hlt => ?_)
  show (x.2 : Int) + 1 < (y.2 : Int) + 1
  omega

/-- The ids that a listing goes through. -/
def listedIds (t : TypeTable) : List TypeId := TypeKind.all.flatMap t.idsOf

theorem mem_listedIds : id ∈ t.listedIds ↔ t.Holds id := by
  constructor
  · intro h
    obtain ⟨kind, -, hid⟩ := List.mem_flatMap.mp h
    exact holds_of_mem_idsOf hid
  · intro h
    obtain ⟨e, he⟩ := h.entry?
    have hall : e.kind ∈ TypeKind.all := by cases e.kind <;> decide
    exact List.mem_flatMap.mpr ⟨e.kind, hall, mem_idsOf.mpr ⟨e, he, rfl⟩⟩

/-- A listing goes through all ids, and through none twice. -/
theorem perm_listedIds (t : TypeTable) :
    t.listedIds.Perm ((List.range t.size).map fun i : Nat => (i : Int) + 1) := by
  have hnodup : t.listedIds.Nodup := by
    refine List.nodup_flatMap.mpr ⟨fun kind _ => ?_, ?_⟩
    · exact (pairwise_idsOf t kind).imp fun hlt => Int.ne_of_lt hlt
    · have hkinds : TypeKind.all.Pairwise (· ≠ ·) := by decide
      refine hkinds.imp fun hne => ?_
      intro id hid hid'
      obtain ⟨e, he, rfl⟩ := mem_idsOf.mp hid
      obtain ⟨e', he', rfl⟩ := mem_idsOf.mp hid'
      exact hne (congrArg TypeEntry.kind (Option.some.inj (he.symm.trans he')))
  have hrange : ((List.range t.size).map fun i : Nat => (i : Int) + 1).Nodup := by
    refine List.nodup_range.map (f := fun i : Nat => (i : Int) + 1) fun i j h => ?_
    have : (i : Int) + 1 = (j : Int) + 1 := h
    omega
  refine (List.perm_ext_iff_of_nodup hnodup hrange).mpr fun id => ?_
  rw [mem_listedIds, List.mem_map]
  constructor
  · intro hid
    obtain ⟨i, rfl, hlt⟩ := hid.index
    exact ⟨i, List.mem_range.mpr hlt, rfl⟩
  · intro hmem
    obtain ⟨i, hi, rfl⟩ := hmem
    exact holds_succ.mpr (List.mem_range.mp hi)

/-! ## The parts of a line -/

/-- What the line of a type says first after its id. -/
def label : TypeKind → String
  | .primitive => "Primitive type: "
  | .class_ => "Class: "
  | .array => "Array type: "
  | .method => "Method type: "

/-- What the line of a type says last, if it is a class with a superclass. -/
def note (t : TypeTable) (id : Int) : TypeKind → String
  | .class_ =>
    match t.superclassOf id with
    | some s => ", Superclass ID: " ++ toString s
    | none => ""
  | _ => ""

/-- What the line of a type says after its id. -/
def remark (t : TypeTable) (id : Int) (kind : TypeKind) : String :=
  label kind ++ (t.spelled id ++ t.note id kind)

theorem Sound.line_eq (h : t.Sound) (he : t.entry? id = some e) :
    t.line id = .ok ("    " ++ toString id ++ ": " ++ t.remark id e.kind) := by
  have habout : t.about id e = .ok (t.remark id e.kind) := by
    have hspelled := h.spelled_eq he
    have hdescribe := h.describe_eq (holds_of_entry he)
    cases e with
    | primitive kind =>
      rw [remark, hspelled]
      exact congrArg Except.ok (congrArg _ (String.append_empty).symm)
    | class_ className =>
      rw [remark, hspelled, spellingOf, ← String.append_assoc]
      rfl
    | array element =>
      rw [about, hdescribe, remark, note, String.append_empty]
      · rfl
      · simp [TypeEntry.kind]
    | method result parameters =>
      rw [about, hdescribe, remark, note, String.append_empty]
      · rfl
      · simp [TypeEntry.kind]
  rw [TypeTable.line, he]
  show (t.about id e >>= fun text => pure ("    " ++ toString id ++ ": " ++ text)) = _
  rw [habout]
  rfl

/-- The line of a type. -/
def row (t : TypeTable) (id : Int) : String :=
  match t.entry? id with
  | some e => "    " ++ toString id ++ ": " ++ t.remark id e.kind
  | none => ""

theorem row_eq (he : t.entry? id = some e) :
    t.row id = "    " ++ toString id ++ ": " ++ t.remark id e.kind := by
  rw [row, he]

theorem Sound.mapM_line (h : t.Sound) :
    t.listedIds.mapM t.line = .ok (t.listedIds.map t.row) := by
  refine mapM_eq_map fun id hid => ?_
  obtain ⟨e, he⟩ := Holds.entry? (mem_listedIds.mp hid)
  rw [h.line_eq he, row_eq he]

/-- The listing of a sound table: a heading, and a line for each type. -/
theorem Sound.listing_eq (h : t.Sound) :
    t.listing = .ok ("\n".intercalate (("Type Table: " ++ t.name) :: t.listedIds.map t.row) ++
      "\n") := by
  rw [TypeTable.listing, ← listedIds, h.mapM_line]
  rfl

/-! ## Lines are told apart -/

/-- What holds of a type if it holds of its parts, holds of all types. -/
theorem Sound.induction {P : Int → Prop} (h : t.Sound) (hid : t.Holds id)
    (hstep : ∀ (id : Int) e, t.entry? id = some e → (∀ part : Int, part ∈ e.parts → P part) →
      P id) : P id := by
  obtain ⟨i, rfl, -⟩ := hid.index
  induction i using Nat.strongRecOn with
  | ind i ih =>
    obtain ⟨e, he⟩ := hid.entry?
    refine hstep _ e he fun part hpart => ?_
    have hbefore := h _ e he part hpart
    obtain ⟨j, rfl, -⟩ := (h.holds_part he hpart).index
    exact ih j (by omega) (h.holds_part he hpart)

/-- A type is spelled on one line. -/
theorem Legible.newline_not_mem_spelled (h : t.Legible) (hid : t.Holds id) :
    '\n' ∉ (t.spelled id).toList := by
  refine h.sound.induction (P := fun id => '\n' ∉ (t.spelled id).toList) hid
    fun id e he hparts => ?_
  rw [h.sound.spelled_eq he]
  cases e with
  | primitive kind =>
    intro hmem
    cases PrimitiveKind.isLower_name kind _ hmem
  | class_ className =>
    obtain ⟨c, cs, hcs, hupper, hrest⟩ := (h.admits id _ he).className className rfl
    rw [spellingOf, hcs, List.mem_cons, not_or]
    refine ⟨?_, fun hmem => ?_⟩
    · rintro rfl
      cases hupper
    · cases hrest _ hmem
  | array element =>
    simpa [spellingOf] using hparts element List.mem_cons_self
  | method result parameters =>
    have hparameters : '\n' ∉ (", ".intercalate (parameters.map t.spelled)).toList := by
      refine not_mem_intercalate (by decide) fun s hs => ?_
      obtain ⟨part, hpart, rfl⟩ := List.mem_map.mp hs
      exact hparts part (List.mem_cons_of_mem _ hpart)
    simp only [spellingOf, String.toList_append, List.mem_append, not_or]
    exact ⟨⟨⟨⟨by decide, hparameters⟩, by decide⟩, hparts result List.mem_cons_self⟩, by decide⟩

theorem toString_holds (hid : t.Holds id) : ∃ n : Nat, id = n ∧ toString id = toString n := by
  obtain ⟨i, rfl, -⟩ := hid.index
  exact ⟨i + 1, rfl, rfl⟩

theorem not_mem_toString (n : Nat) {c : Char} (hc : isDigit c = false) :
    c ∉ (toString n).toList := by
  intro hmem
  rw [isDigit_toString n c hmem] at hc
  cases hc

/-- Superclasses are types of the table, and only classes have one. -/
def Inherits (t : TypeTable) : Prop :=
  ∀ id s : Int, t.superclassOf id = some s →
    t.Holds s ∧ ∃ className, t.entry? id = some (.class_ className)

theorem Inherits.superclassOf_eq_none (h : t.Inherits)
    (hid : ∀ className, t.entry? id ≠ some (.class_ className)) : t.superclassOf id = none := by
  cases hs : t.superclassOf id with
  | none => rfl
  | some s =>
    obtain ⟨-, className, hclass⟩ := h id s hs
    exact absurd hclass (hid className)

theorem Inherits.note_eq (h : t.Inherits) (id : Int) (kind : TypeKind) :
    (t.note id kind = "" ∧ (kind = .class_ → t.superclassOf id = none)) ∨
      kind = .class_ ∧ ∃ n : Nat, t.superclassOf id = some (n : Int) ∧
        t.note id kind = ", Superclass ID: " ++ toString n := by
  cases kind with
  | primitive | array | method => exact Or.inl ⟨rfl, by simp⟩
  | class_ =>
    cases hs : t.superclassOf id with
    | none => exact Or.inl ⟨by simp [note, hs], fun _ => rfl⟩
    | some s =>
      obtain ⟨n, rfl, htext⟩ := toString_holds (h id s hs).1
      exact Or.inr ⟨rfl, n, rfl, by rw [note, hs, ← htext]⟩

theorem newline_not_mem_label (kind : TypeKind) : '\n' ∉ (label kind).toList := by
  cases kind <;> decide

/-- A line is one line. -/
theorem Legible.newline_not_mem_row (h : t.Legible) (hi : t.Inherits) (hid : t.Holds id) :
    '\n' ∉ (t.row id).toList := by
  obtain ⟨e, he⟩ := hid.entry?
  obtain ⟨n, rfl, hn⟩ := toString_holds hid
  have hnote : '\n' ∉ (t.note n e.kind).toList := by
    rcases hi.note_eq n e.kind with ⟨hnote, -⟩ | ⟨-, m, -, hnote⟩
    · simp [hnote]
    · rw [hnote, String.toList_append, List.mem_append, not_or]
      exact ⟨by decide, not_mem_toString m rfl⟩
  rw [row_eq he, hn, remark]
  simp only [String.toList_append, List.mem_append, not_or]
  exact ⟨⟨⟨by decide, not_mem_toString n rfl⟩, by decide⟩, newline_not_mem_label _,
    h.newline_not_mem_spelled hid, hnote⟩

/-- A label says which sort it is for. -/
theorem eq_of_label {x y : String} (h : label kind ++ x = label kind' ++ y) :
    kind = kind' ∧ x = y := by
  have hchars := congrArg String.toList h
  rw [String.toList_append, String.toList_append] at hchars
  obtain rfl : kind = kind' := by
    have hhead := congrArg List.head? hchars
    cases kind <;> cases kind' <;> first | rfl | exact absurd hhead (by simp [label])
  exact ⟨rfl, String.toList_inj.mp (List.append_cancel_left hchars)⟩

/-- What a line says after the id can be told apart. -/
theorem Legible.eq_of_remark (h : t.Legible) (h' : t'.Legible) (hi : t.Inherits)
    (hi' : t'.Inherits) (he : t.entry? id = some e) (he' : t'.entry? id = some e')
    (heq : t.remark id e.kind = t'.remark id e'.kind) :
    t.spelled id = t'.spelled id ∧ e.kind = e'.kind ∧
      t.note id e.kind = t'.note id e'.kind := by
  obtain ⟨hkind, heq⟩ := eq_of_label heq
  by_cases hclass : e.kind = .class_
  · -- The name of a class ends before the note.
    have hword : ∀ {t : TypeTable} {e : TypeEntry}, t.Legible → t.entry? id = some e →
        e.kind = .class_ → ∀ c ∈ (t.spelled id).toList, isWordChar c = true := by
      intro t e h he hclass
      obtain ⟨className, rfl⟩ : ∃ className, e = .class_ className := by
        cases e <;> simp_all [TypeEntry.kind]
      obtain ⟨c, cs, hcs, hupper, hrest⟩ := (h.admits id _ he).className className rfl
      rw [h.sound.spelled_eq he, spellingOf, hcs, List.forall_mem_cons]
      exact ⟨by simp [isWordChar, hupper], hrest⟩
    have hstop : ∀ {t : TypeTable} (kind : TypeKind), t.Inherits →
        ∀ c ∈ (t.note id kind).toList.head?, isWordChar c = false := by
      intro t kind hi c hc
      rcases hi.note_eq id kind with ⟨hnote, -⟩ | ⟨-, n, -, hnote⟩
      · simp [hnote] at hc
      · rw [hnote, String.toList_append] at hc
        obtain rfl : ',' = c := by simpa using hc
        decide
    have hchars := congrArg String.toList heq
    rw [String.toList_append, String.toList_append] at hchars
    obtain ⟨hname, hnote⟩ := eq_of_cut (hword h he hclass) (hword h' he' (hkind ▸ hclass))
      (hstop _ hi) (hstop _ hi') hchars
    exact ⟨String.toList_inj.mp hname, hkind, String.toList_inj.mp hnote⟩
  · have hnone := ((hi.note_eq id e.kind).resolve_right fun hn => hclass hn.1).1
    have hnone' :=
      ((hi'.note_eq id e'.kind).resolve_right fun hn => hclass (hkind.trans hn.1)).1
    rw [hnone, hnone', String.append_empty, String.append_empty] at heq
    rw [hnone, hnone']
    exact ⟨heq, hkind, rfl⟩

/-- A note says which class the superclass is. -/
theorem Inherits.eq_of_note (h : t.Inherits) (h' : t'.Inherits)
    (heq : t.note id .class_ = t'.note id .class_) : t.superclassOf id = t'.superclassOf id := by
  have hne : ∀ n : Nat, ", Superclass ID: " ++ toString n ≠ "" := by
    intro n hempty
    have hchars := congrArg String.toList hempty
    rw [String.toList_append] at hchars
    simp at hchars
  rcases h.note_eq id .class_ with ⟨hnote, hnone⟩ | ⟨-, n, hs, hnote⟩
  · rcases h'.note_eq id .class_ with ⟨-, hnone'⟩ | ⟨-, n', -, hnote'⟩
    · rw [hnone rfl, hnone' rfl]
    · exact absurd (hnote'.symm.trans (heq.symm.trans hnote)) (hne n')
  · rcases h'.note_eq id .class_ with ⟨hnote', -⟩ | ⟨-, n', hs', hnote'⟩
    · exact absurd (hnote.symm.trans (heq.trans hnote')) (hne n)
    · have hchars := congrArg String.toList (hnote.symm.trans (heq.trans hnote'))
      rw [String.toList_append, String.toList_append] at hchars
      rw [hs, hs', toString_injective (String.toList_inj.mp (List.append_cancel_left hchars))]

/-- Lines are told apart by the ids that they start with. -/
theorem eq_of_row {id' : Int} (hid : t.Holds id) (hid' : t'.Holds id')
    (he : t.entry? id = some e) (he' : t'.entry? id' = some e')
    (heq : t.row id = t'.row id') : id = id' ∧ t.remark id e.kind = t'.remark id' e'.kind := by
  obtain ⟨n, rfl, hn⟩ := toString_holds hid
  obtain ⟨n', rfl, hn'⟩ := toString_holds hid'
  simp only [row_eq he, row_eq he', hn, hn', String.append_assoc, String.append_right_inj] at heq
  obtain ⟨hdigits, hrest⟩ :=
    eq_of_cut_text rfl (not_mem_toString n rfl) (not_mem_toString n' rfl) heq
  obtain rfl := toString_injective hdigits
  exact ⟨rfl, hrest⟩

/-- A listing that shows each type of a table once, on a line of its own. -/
structure Shows (t : TypeTable) (text : String) : Prop where
  /-- There is a heading, and then the lines of the ids. -/
  lines : ∃ rows, t.listedIds.mapM t.line = .ok rows ∧
    text = "\n".intercalate (("Type Table: " ++ t.name) :: rows) ++ "\n" ∧
    ∀ row ∈ rows, '\n' ∉ row.toList
  /-- A line starts with its id. -/
  ids : ∀ id row, t.line id = .ok row → ∃ rest, row = "    " ++ toString id ++ ": " ++ rest
  complete : t.listedIds.Perm ((List.range t.size).map fun i : Nat => (i : Int) + 1)
  /-- The ids are listed by the sorts of their types, and in increasing order for each sort. -/
  groups : t.listedIds = t.idsOf .primitive ++ t.idsOf .class_ ++ t.idsOf .array ++ t.idsOf .method
  members : ∀ kind (id : Int), id ∈ t.idsOf kind ↔ ∃ e, t.entry? id = some e ∧ e.kind = kind
  increasing : ∀ kind, (t.idsOf kind).Pairwise (· < ·)

theorem Legible.shows (h : t.Legible) (hi : t.Inherits) :
    ∃ text, t.listing = .ok text ∧ t.Shows text := by
  refine ⟨_, h.sound.listing_eq, ?_, ?_, t.perm_listedIds, ?_, fun kind id => mem_idsOf,
    t.pairwise_idsOf⟩
  · refine ⟨_, h.sound.mapM_line, rfl, List.forall_mem_map.mpr fun id hid => ?_⟩
    exact h.newline_not_mem_row hi (mem_listedIds.mp hid)
  · intro id row hrow
    cases he : t.entry? id with
    | none =>
      rw [TypeTable.line, he] at hrow
      cases hrow
    | some e =>
      rw [h.sound.line_eq he, Except.ok.injEq] at hrow
      exact ⟨_, hrow.symm⟩
  · simp [listedIds, TypeKind.all]

/-! ## Tables are told apart -/

/-- What a search finds depends on the types up to there. -/
theorem First.of_entries (h : t'.First id) (heq : ∀ k : Int, k ≤ id → t.entry? k = t'.entry? k) :
    t.First id := by
  obtain ⟨e, he⟩ := h
  obtain ⟨hentry, hleast⟩ := find?_eq_some_iff.mp he
  refine ⟨e, find?_eq_some_iff.mpr ⟨(heq id (Int.le_refl id)).trans hentry, fun k hk => ?_⟩⟩
  by_contra hlt
  have hbefore : k ≤ id := by omega
  exact hlt (hleast k ((heq k hbefore).symm.trans hk))

theorem spellingOf_congr (h : ∀ part : Int, part ∈ e.parts → t.spelled part = t'.spelled part) :
    t.spellingOf e = t'.spellingOf e := by
  cases e with
  | primitive _ | class_ _ => rfl
  | array element => rw [spellingOf, spellingOf, h element List.mem_cons_self]
  | method result parameters =>
    rw [spellingOf, spellingOf, h result List.mem_cons_self,
      List.map_congr_left fun part hpart => h part (List.mem_cons_of_mem _ hpart)]

/-- A legible table is what its spellings say. -/
theorem Legible.eq_of_spelled (h : t.Legible) (h' : t'.Legible) (hsize : t.size = t'.size)
    (hspelled : ∀ id : Int, t.Holds id → t.spelled id = t'.spelled id) :
    t.entries = t'.entries := by
  refine List.ext_getElem? fun i => ?_
  induction i using Nat.strongRecOn with
  | ind i ih =>
    have hbefore : ∀ k : Int, k < (i : Int) + 1 → t.entry? k = t'.entry? k := by
      intro k hk
      by_cases hpos : 1 ≤ k
      · obtain ⟨j, rfl⟩ : ∃ j : Nat, k = (j : Int) + 1 := ⟨k.toNat - 1, by omega⟩
        rw [entry?_succ, entry?_succ, ih j (by omega)]
      · rw [ TypeTable.entry?, TypeTable.entry?, if_neg hpos, if_neg hpos]
    by_cases hlt : i < t.size
    · have hid : t.Holds ((i : Int) + 1) := holds_succ.mpr hlt
      have hid' : t'.Holds ((i : Int) + 1) := holds_succ.mpr (hsize ▸ hlt)
      obtain ⟨e, he⟩ := hid.entry?
      obtain ⟨e', he'⟩ := hid'.entry?
      -- The parts of both types come before, where the tables agree.
      have hadmits : t.Admits e' := by
        refine ⟨fun part hpart => ?_, (h'.admits _ e' he').className⟩
        have hpart' := (h'.sound _ e' he' part hpart).2
        exact ((h'.admits _ e' he').parts part hpart).of_entries fun k hk =>
          hbefore k (by omega)
      have hparts : t.spellingOf e' = t'.spellingOf e' := by
        refine spellingOf_congr fun part hpart => hspelled part ?_
        have hholds := h'.sound.holds_part he' hpart
        exact ⟨hholds.1, hsize ▸ hholds.2⟩
      have heq : e = e' := by
        refine h.eq_of_spelling (h.admits _ e he) hadmits ?_
        rw [hparts, ← h.sound.spelled_eq he, ← h'.sound.spelled_eq he', hspelled _ hid]
      rw [← entry?_succ, ← entry?_succ, he, he', heq]
    · have hlt' : ¬ i < t'.size := hsize ▸ hlt
      rw [List.getElem?_eq_none (Nat.le_of_not_lt hlt),
        List.getElem?_eq_none (Nat.le_of_not_lt hlt')]

/-- A legible table can be read back from its listing. -/
theorem Legible.eq_of_listing (h : t.Legible) (h' : t'.Legible) (hi : t.Inherits)
    (hi' : t'.Inherits) (hname : t.name = t'.name) (heq : t.listing = t'.listing) :
    t.entries = t'.entries ∧ ∀ id, t.superclassOf id = t'.superclassOf id := by
  rw [h.sound.listing_eq, h'.sound.listing_eq, Except.ok.injEq, ← hname] at heq
  have hrows : t.listedIds.map t.row = t'.listedIds.map t'.row := by
    have htext := (String.append_left_inj _).mp heq
    refine eq_of_intercalate_cons (c := '\n') rfl List.not_mem_nil ?_ ?_ htext
    · refine List.forall_mem_map.mpr fun id hid => ?_
      exact h.newline_not_mem_row hi (mem_listedIds.mp hid)
    · refine List.forall_mem_map.mpr fun id hid => ?_
      exact h'.newline_not_mem_row hi' (mem_listedIds.mp hid)
  -- The lines start with the ids, so that the same ids are listed.
  obtain ⟨hids, hall⟩ := eq_of_map_eq (fun id hid id' hid' hrow => by
    obtain ⟨e, he⟩ := Holds.entry? (mem_listedIds.mp hid)
    obtain ⟨e', he'⟩ := Holds.entry? (mem_listedIds.mp hid')
    exact (eq_of_row (mem_listedIds.mp hid) (mem_listedIds.mp hid') he he' hrow).1) hrows
  have hsize : t.size = t'.size := by
    have hlength := t.perm_listedIds.length_eq
    rwa [hids, t'.perm_listedIds.length_eq, List.length_map, List.length_map, List.length_range,
      List.length_range, eq_comm] at hlength
  have hlines : ∀ id : Int, t.Holds id →
      t.spelled id = t'.spelled id ∧ t.superclassOf id = t'.superclassOf id := by
    intro id hid
    have hid' : t'.Holds id := ⟨hid.1, hsize ▸ hid.2⟩
    obtain ⟨e, he⟩ := hid.entry?
    obtain ⟨e', he'⟩ := hid'.entry?
    obtain ⟨-, hremark⟩ := eq_of_row hid hid' he he' (hall id (mem_listedIds.mpr hid))
    obtain ⟨hspelled, hkind, hnote⟩ := h.eq_of_remark h' hi hi' he he' hremark
    refine ⟨hspelled, ?_⟩
    by_cases hclass : e.kind = .class_
    · rw [← hkind, hclass] at hnote
      exact hi.eq_of_note hi' hnote
    · have hnone : ∀ {t : TypeTable} {e : TypeEntry}, t.entry? id = some e → e.kind ≠ .class_ →
          ∀ className, t.entry? id ≠ some (.class_ className) := by
        intro t e he hne className hsome
        exact hne (congrArg TypeEntry.kind (Option.some.inj (he.symm.trans hsome)))
      rw [hi.superclassOf_eq_none (hnone he hclass),
        hi'.superclassOf_eq_none (hnone he' (hkind ▸ hclass))]
  refine ⟨h.eq_of_spelled h' hsize fun id hid => (hlines id hid).1, fun id => ?_⟩
  by_cases hid : t.Holds id
  · exact (hlines id hid).2
  · rw [hi.superclassOf_eq_none fun _ he => hid (holds_of_entry he),
      hi'.superclassOf_eq_none fun _ he =>
        hid ⟨(holds_of_entry he).1, hsize ▸ (holds_of_entry he).2⟩]

end TypeTable

end IcFront
