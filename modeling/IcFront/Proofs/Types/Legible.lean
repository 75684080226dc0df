import IcFront.Proofs.Grammar.TypesRead
import IcFront.Proofs.Separators
import IcFront.Proofs.Types.Spelled

/-!
# Types told apart by their spellings

The spelling of a type that was read from a text says which type it is: its base
(`BaseType.eq_of_name`) and how many brackets follow it (`TypeRef.eq_of_spelling`). The
spelling of a signature says which types it is made of (`spellings_of_signature`). For a
name is made of letters, digits and underscores, so that brackets, commas and arrows are
no part of one.
-/

namespace IcFront

/-! ## Types -/

theorem length_brackets (n : Nat) : (brackets n).toList.length = 2 * n := by
  induction n with
  | zero => rfl
  | succ n ih =>
    rw [brackets, String.toList_append, List.length_append, ih]
    show 2 + 2 * n = 2 * (n + 1)
    omega

theorem head_brackets (n : Nat) : ∀ c ∈ (brackets n).toList.head?, c = '[' := by
  cases n with
  | zero => simp [brackets]
  | succ n => simp [brackets]

theorem mem_brackets (n : Nat) : ∀ c ∈ (brackets n).toList, c = '[' ∨ c = ']' := by
  induction n with
  | zero => simp [brackets]
  | succ n ih =>
    intro c hc
    rw [brackets, String.toList_append, List.mem_append] at hc
    rcases hc with hc | hc
    · simpa using hc
    · exact ih c hc

namespace BaseType

variable {b b' : BaseType}

/-- The name of a base is a word. -/
theorem isWordChar_name (h : b.mark.Writable) : ∀ c ∈ b.name.toList, isWordChar c = true := by
  cases b with
  | primitive prim =>
    have hall : prim.name.toList.all isWordChar = true := by cases prim <;> decide
    exact List.all_eq_true.1 hall
  | user className =>
    obtain ⟨c, cs, hname, hupper, hcs⟩ := h
    intro d hd
    rw [name, hname] at hd
    rcases List.mem_cons.mp hd with rfl | hd
    · simp [isWordChar, hupper]
    · exact hcs d hd

theorem name_ne_nil (h : b.mark.Writable) : b.name.toList ≠ [] := by
  cases b with
  | primitive prim => cases prim <;> decide
  | user className =>
    obtain ⟨c, cs, hname, -⟩ := h
    rw [name, hname]
    exact List.cons_ne_nil c cs

/-- The name of a base says which base it is: no class has the name of a primitive
type. -/
theorem eq_of_name (h : b.mark.Writable) (h' : b'.mark.Writable) (hname : b.name = b'.name) :
    b = b' := by
  have hclash : ∀ (prim : Primitive) (className : String),
      (BaseType.user className).mark.Writable → prim.name ≠ className := by
    intro prim className hw heq
    obtain ⟨c, cs, hchars, hupper, -⟩ := hw
    rw [← heq] at hchars
    cases prim <;> cases hchars <;> cases hupper
  cases b with
  | primitive prim =>
    cases b' with
    | primitive prim' =>
      have heq : prim.name = prim'.name := hname
      cases prim <;> cases prim' <;> first | rfl | exact absurd heq (by decide)
    | user className => exact absurd hname (hclash prim className h')
  | user className =>
    cases b' with
    | primitive prim => exact absurd hname.symm (hclash prim className h)
    | user className' => exact congrArg user hname

end BaseType

namespace TypeRef

variable {t t' : TypeRef}

/-- The spelling of a type says what its base is and how many brackets follow it. -/
theorem eq_of_spelling (h : t.Written) (h' : t'.Written) (hspelling : t.spelling = t'.spelling) :
    t.base = t'.base ∧ t.dimension = t'.dimension := by
  have hno : ∀ n, ∀ c ∈ (brackets n).toList.head?, isWordChar c = false := by
    intro n c hc
    rw [head_brackets n c hc]
    decide
  have hchars := congrArg String.toList hspelling
  rw [spelling, spelling, String.toList_append, String.toList_append] at hchars
  obtain ⟨hname, hbrackets⟩ := eq_of_cut (BaseType.isWordChar_name h.base)
    (BaseType.isWordChar_name h'.base) (hno _) (hno _) hchars
  have hlength := congrArg List.length hbrackets
  rw [length_brackets, length_brackets] at hlength
  have hdimension := h.dimension
  have hdimension' := h'.dimension
  exact ⟨BaseType.eq_of_name h.base h'.base (String.toList_inj.mp hname), by omega⟩

/-- The characters that the spelling of a type is made of. -/
def isSpelling (c : Char) : Bool := isWordChar c || c = '[' || c = ']'

theorem isSpelling_spelling (h : t.Written) : ∀ c ∈ t.spelling.toList, isSpelling c = true := by
  intro c hc
  rw [spelling, String.toList_append, List.mem_append] at hc
  rcases hc with hname | hbracket
  · simp [isSpelling, BaseType.isWordChar_name h.base c hname]
  · rcases mem_brackets _ c hbracket with rfl | rfl <;> rfl

theorem spelling_ne_nil (h : t.Written) : t.spelling.toList ≠ [] := by
  rw [spelling, String.toList_append]
  exact List.append_ne_nil_of_left_ne_nil (BaseType.name_ne_nil h.base) _

end TypeRef

/-! ## Signatures -/

section Signatures

open TypeRef

variable {types types' : List TypeRef} {result result' : TypeRef} {rest rest' : List Char}

/-- Types with a comma and a space before each. -/
def commas (types : List TypeRef) : List Char :=
  types.flatMap fun t => ',' :: ' ' :: t.spelling.toList

theorem head_commas (types : List TypeRef) (rest : List Char) :
    ∀ c ∈ (commas types ++ ' ' :: rest).head?, isSpelling c = false := by
  cases types with
  | nil => simp [commas, isSpelling, isWordChar, isUpper, isLower, isDigit]
  | cons t ts => simp [commas, isSpelling, isWordChar, isUpper, isLower, isDigit]

theorem spellings_of_commas (h : ∀ t ∈ types, t.Written) (h' : ∀ t ∈ types', t.Written)
    (heq : commas types ++ ' ' :: rest = commas types' ++ ' ' :: rest') :
    types.map spelling = types'.map spelling ∧ rest = rest' := by
  induction types generalizing types' with
  | nil =>
    cases types' with
    | nil => exact ⟨rfl, (List.cons.inj heq).2⟩
    | cons t' ts' => cases (List.cons.inj heq).1
  | cons t ts ih =>
    cases types' with
    | nil => cases (List.cons.inj heq).1
    | cons t' ts' =>
      have hcut : t.spelling.toList ++ (commas ts ++ ' ' :: rest) =
          t'.spelling.toList ++ (commas ts' ++ ' ' :: rest') := by
        simpa [commas] using heq
      obtain ⟨hfirst, hrest⟩ := eq_of_cut (isSpelling_spelling (h t List.mem_cons_self))
        (isSpelling_spelling (h' t' List.mem_cons_self)) (head_commas ts rest)
        (head_commas ts' rest') hcut
      obtain ⟨hmap, hrest⟩ := ih (fun x hx => h x (List.mem_cons_of_mem _ hx))
        (fun x hx => h' x (List.mem_cons_of_mem _ hx)) hrest
      exact ⟨List.cons_eq_cons.mpr ⟨String.toList_inj.mp hfirst, hmap⟩, hrest⟩

/-- Types with a comma between two, the first of them without one. -/
theorem toList_intercalate_spelling (t : TypeRef) (ts : List TypeRef) :
    (", ".intercalate ((t :: ts).map spelling)).toList = t.spelling.toList ++ commas ts := by
  rw [List.map_cons, toList_intercalate_cons, List.flatMap_map]
  rfl

/-- The spelling of a signature says how the types in it are spelled. -/
theorem spellings_of_signature {name name' : String} (h : ∀ t ∈ types, t.Written)
    (h' : ∀ t ∈ types', t.Written)
    (heq : (DeclaredType.method result types).spelling name =
      (DeclaredType.method result' types').spelling name') :
    types.map spelling = types'.map spelling ∧ result.spelling = result'.spelling := by
  have hchars := congrArg String.toList heq
  simp only [DeclaredType.spelling, String.toList_append] at hchars
  have hcut : (", ".intercalate (types.map spelling)).toList ++
        ' ' :: ("-> ".toList ++ (result.spelling.toList ++ ['\x7d'])) =
      (", ".intercalate (types'.map spelling)).toList ++
        ' ' :: ("-> ".toList ++ (result'.spelling.toList ++ ['\x7d'])) := by
    simpa using hchars
  -- Only a signature without parameters starts with the space before the arrow.
  have hnone : ∀ (t : TypeRef) (ts : List TypeRef) (cs cs' : List Char), t.Written →
      ' ' :: cs ≠ (t.spelling.toList ++ commas ts) ++ cs' := by
    intro t ts cs cs' ht hspace
    obtain ⟨c, tail, hc⟩ := List.exists_cons_of_ne_nil (spelling_ne_nil ht)
    rw [hc] at hspace
    have hword := isSpelling_spelling ht c (hc ▸ List.mem_cons_self)
    rw [← (List.cons.inj hspace).1] at hword
    revert hword
    decide
  have harrow : types.map spelling = types'.map spelling ∧
      result.spelling.toList ++ ['\x7d'] = result'.spelling.toList ++ ['\x7d'] := by
    cases types with
    | nil =>
      cases types' with
      | nil => exact ⟨rfl, List.append_cancel_left (List.cons.inj hcut).2⟩
      | cons t' ts' =>
        rw [toList_intercalate_spelling] at hcut
        exact absurd hcut (hnone t' ts' _ _ (h' t' List.mem_cons_self))
    | cons t ts =>
      cases types' with
      | nil =>
        rw [toList_intercalate_spelling] at hcut
        exact absurd hcut.symm (hnone t ts _ _ (h t List.mem_cons_self))
      | cons t' ts' =>
        rw [toList_intercalate_spelling, toList_intercalate_spelling] at hcut
        -- With a comma before the first type as well, both are lists of the same sort.
        have hcommas : commas (t :: ts) ++
              ' ' :: ("-> ".toList ++ (result.spelling.toList ++ ['\x7d'])) =
            commas (t' :: ts') ++
              ' ' :: ("-> ".toList ++ (result'.spelling.toList ++ ['\x7d'])) :=
          congrArg (fun cs => ',' :: ' ' :: cs) hcut
        obtain ⟨hmap, hrest⟩ := spellings_of_commas h h' hcommas
        exact ⟨hmap, List.append_cancel_left hrest⟩
  exact ⟨harrow.1, String.toList_inj.mp (List.append_cancel_right harrow.2)⟩

end Signatures

end IcFront
