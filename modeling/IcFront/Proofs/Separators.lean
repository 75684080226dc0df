import Mathlib.Data.List.Basic

/-!
# Texts cut at separators

Where characters of one sort end and another character follows, a text can be cut in one
way only (`eq_of_cut`). So lists that stand in a row, a separator before each, can be told
apart if the separator is in none of them (`eq_of_separators`). It does not matter what the
lists are lists of: lines are cut off a text in this way, and sections off a list of lines.

`toList_intercalate_cons` says how texts that are joined by another text stand in a row, and
`eq_of_intercalate` that they can be told apart; and so can sections of lines, with an empty
line between two (`eq_of_sections`). Once texts are told apart, so are the things that they
were made of (`eq_of_map_eq`).
-/

namespace IcFront

variable {α : Type}

/-! ## Cutting at one place -/

section Cut

variable {p : α → Bool} {word word' rest rest' : List α}

/-- Two texts that start with all characters of a sort, and then go on with one of
another sort or end, are the same only if both parts are. -/
theorem eq_of_cut (hword : ∀ c ∈ word, p c = true) (hword' : ∀ c ∈ word', p c = true)
    (hrest : ∀ c ∈ rest.head?, p c = false) (hrest' : ∀ c ∈ rest'.head?, p c = false)
    (h : word ++ rest = word' ++ rest') : word = word' ∧ rest = rest' := by
  have hstop : ∀ cs : List α, (∀ c ∈ cs.head?, p c = false) → cs.takeWhile p = [] := by
    intro cs hcs
    cases cs with
    | nil => rfl
    | cons c cs => exact List.takeWhile_cons_of_neg (by simpa using hcs c rfl)
  have heq : word = word' := by
    have htake := congrArg (List.takeWhile p) h
    rwa [List.takeWhile_append_of_pos hword, List.takeWhile_append_of_pos hword', hstop _ hrest,
      hstop _ hrest', List.append_nil, List.append_nil] at htake
  subst heq
  exact ⟨rfl, List.append_cancel_left h⟩

/-- A text can be cut at the first character of one sort. -/
theorem eq_of_cut_text {c : Char} {more : List Char} {a a' b b' sep : String}
    (hsep : sep.toList = c :: more) (ha : c ∉ a.toList) (ha' : c ∉ a'.toList)
    (h : a ++ (sep ++ b) = a' ++ (sep ++ b')) : a = a' ∧ b = b' := by
  have hword : ∀ w : List Char, c ∉ w → ∀ d ∈ w, decide (d ≠ c) = true := by
    intro w hw d hd
    exact decide_eq_true fun heq => hw (heq ▸ hd)
  have hchars := congrArg String.toList h
  simp only [String.toList_append, hsep, List.cons_append] at hchars
  obtain ⟨hfirst, hrest⟩ := eq_of_cut (hword _ ha) (hword _ ha') (by simp) (by simp) hchars
  have hrest := List.append_cancel_left (List.cons.inj hrest).2
  exact ⟨String.toList_inj.mp hfirst, String.toList_inj.mp hrest⟩

end Cut

/-! ## Cutting at all separators -/

section Separators

variable {sep : α} {xs ys : List (List α)}

theorem head?_separators (xs : List (List α)) :
    ∀ c ∈ (xs.flatMap (sep :: ·)).head?, c = sep := by
  cases xs with
  | nil => simp
  | cons x xs => simp

/-- Two texts without separators, each with further ones behind separators. -/
theorem eq_of_separators_append [DecidableEq α] {x y : List α} (hx : sep ∉ x) (hy : sep ∉ y)
    (hxs : ∀ x ∈ xs, sep ∉ x) (hys : ∀ y ∈ ys, sep ∉ y)
    (h : x ++ xs.flatMap (sep :: ·) = y ++ ys.flatMap (sep :: ·)) : x = y ∧ xs = ys := by
  have hword : ∀ w : List α, sep ∉ w → ∀ c ∈ w, decide (c ≠ sep) = true := by
    intro w hw c hc
    exact decide_eq_true fun heq => hw (heq ▸ hc)
  have hrest : ∀ zs : List (List α), ∀ c ∈ (zs.flatMap (sep :: ·)).head?,
      decide (c ≠ sep) = false := by
    intro zs c hc
    rw [head?_separators zs c hc]
    simp
  induction xs generalizing x y ys with
  | nil =>
    obtain ⟨hfirst, hnil⟩ := eq_of_cut (hword x hx) (hword y hy) (hrest []) (hrest ys) h
    cases ys with
    | nil => exact ⟨hfirst, rfl⟩
    | cons z zs => simp at hnil
  | cons x' xs ih =>
    obtain ⟨hfirst, htail⟩ := eq_of_cut (hword x hx) (hword y hy) (hrest (x' :: xs)) (hrest ys) h
    cases ys with
    | nil => simp at htail
    | cons y' ys =>
      rw [List.forall_mem_cons] at hxs hys
      rw [List.flatMap_cons, List.flatMap_cons, List.cons_append, List.cons_append] at htail
      obtain ⟨rfl, rfl⟩ := ih hxs.1 hys.1 hxs.2 hys.2 (List.cons.inj htail).2
      exact ⟨hfirst, rfl⟩

/-- Texts without separators, a separator before each, are told apart. -/
theorem eq_of_separators [DecidableEq α] (hxs : ∀ x ∈ xs, sep ∉ x) (hys : ∀ y ∈ ys, sep ∉ y)
    (h : xs.flatMap (sep :: ·) = ys.flatMap (sep :: ·)) : xs = ys :=
  (eq_of_separators_append (List.not_mem_nil) (List.not_mem_nil) hxs hys
    (by rwa [List.nil_append, List.nil_append])).2

end Separators

/-! ## Joined texts -/

theorem toList_intercalate_cons (sep s : String) (ss : List String) :
    (sep.intercalate (s :: ss)).toList =
      s.toList ++ ss.flatMap fun s => sep.toList ++ s.toList := by
  rw [String.toList_intercalate]
  induction ss generalizing s with
  | nil => simp [List.intercalate]
  | cons s' ss ih =>
    have hrest := ih s'
    rw [List.map_cons] at hrest
    rw [List.map_cons, List.map_cons, List.intercalate_cons_cons, hrest, List.flatMap_cons]
    simp only [List.append_assoc]

section Joined

variable {c : Char} {more : List Char} {sep s s' : String} {ss ss' : List String}

/-- Joined texts are told apart if the separator starts with a character that is nowhere else. -/
theorem eq_of_joined {x y : List Char} (hsep : sep.toList = c :: more) (hmore : c ∉ more)
    (hx : c ∉ x) (hy : c ∉ y) (hss : ∀ s ∈ ss, c ∉ s.toList) (hss' : ∀ s ∈ ss', c ∉ s.toList)
    (h : (x ++ ss.flatMap fun s => sep.toList ++ s.toList) =
      y ++ ss'.flatMap fun s => sep.toList ++ s.toList) : x = y ∧ ss = ss' := by
  have hrow : ∀ ss : List String, (ss.flatMap fun s => sep.toList ++ s.toList) =
      (ss.map fun s => more ++ s.toList).flatMap (c :: ·) := by
    intro ss
    rw [List.flatMap_map, hsep]
    rfl
  have hfree : ∀ ss : List String, (∀ s ∈ ss, c ∉ s.toList) →
      ∀ text ∈ ss.map fun s => more ++ s.toList, c ∉ text := by
    intro ss hss
    refine List.forall_mem_map.mpr fun s hs => ?_
    rw [List.mem_append, not_or]
    exact ⟨hmore, hss s hs⟩
  rw [hrow, hrow] at h
  obtain ⟨hfirst, hrest⟩ := eq_of_separators_append hx hy (hfree ss hss) (hfree ss' hss') h
  refine ⟨hfirst, List.map_injective_iff.mpr (fun s s' hs => ?_) hrest⟩
  exact String.toList_inj.mp (List.append_cancel_left hs)

theorem eq_of_intercalate (hsep : sep.toList = c :: more) (hmore : c ∉ more)
    (hs : ∀ x ∈ s :: ss, c ∉ x.toList) (hs' : ∀ x ∈ s' :: ss', c ∉ x.toList)
    (h : sep.intercalate (s :: ss) = sep.intercalate (s' :: ss')) : s :: ss = s' :: ss' := by
  rw [List.forall_mem_cons] at hs hs'
  have hchars := congrArg String.toList h
  rw [toList_intercalate_cons, toList_intercalate_cons] at hchars
  obtain ⟨hfirst, hrest⟩ := eq_of_joined hsep hmore hs.1 hs'.1 hs.2 hs'.2 hchars
  exact List.cons_eq_cons.mpr ⟨String.toList_inj.mp hfirst, hrest⟩

/-- If the first text is known, it may be any. -/
theorem eq_of_intercalate_cons (hsep : sep.toList = c :: more) (hmore : c ∉ more)
    (hss : ∀ x ∈ ss, c ∉ x.toList) (hss' : ∀ x ∈ ss', c ∉ x.toList)
    (h : sep.intercalate (s :: ss) = sep.intercalate (s :: ss')) : ss = ss' := by
  have hchars := congrArg String.toList h
  rw [toList_intercalate_cons, toList_intercalate_cons] at hchars
  refine (eq_of_joined hsep hmore List.not_mem_nil List.not_mem_nil hss hss' ?_).2
  rw [List.nil_append, List.nil_append]
  exact List.append_cancel_left hchars

end Joined

theorem not_mem_intercalate {c : Char} {sep : String} {ss : List String} (hsep : c ∉ sep.toList)
    (hss : ∀ s ∈ ss, c ∉ s.toList) : c ∉ (sep.intercalate ss).toList := by
  cases ss with
  | nil => simp
  | cons s ss =>
    rw [List.forall_mem_cons] at hss
    rw [toList_intercalate_cons, List.mem_append, List.mem_flatMap]
    rintro (hfirst | ⟨s', hs', hc⟩)
    · exact hss.1 hfirst
    · rcases List.mem_append.mp hc with hc | hc
      · exact hsep hc
      · exact hss.2 s' hs' hc

/-! ## Sections -/

/-- A text that is one line, and not an empty one. -/
structure IsLine (s : String) : Prop where
  nonempty : s ≠ ""
  newline : '\n' ∉ s.toList

/-- Sections with an empty line between two, written as lines. -/
theorem toList_intercalate_sections {s : String} {ss : List String} {xs : List (List String)}
    (hxs : ∀ x ∈ xs, x ≠ []) :
    ("\n\n".intercalate ("\n".intercalate (s :: ss) :: xs.map "\n".intercalate)).toList =
      s.toList ++ (ss ++ xs.flatMap ("" :: ·)).flatMap fun line => '\n' :: line.toList := by
  have hsection : ∀ x ∈ xs, "\n\n".toList ++ ("\n".intercalate x).toList =
      ("" :: x).flatMap fun line => '\n' :: line.toList := by
    intro x hx
    obtain ⟨first, rest, rfl⟩ := List.exists_cons_of_ne_nil (hxs x hx)
    rw [toList_intercalate_cons]
    rfl
  rw [toList_intercalate_cons, toList_intercalate_cons, List.flatMap_append, List.flatMap_assoc,
    List.flatMap_map, List.flatMap_congr hsection, List.append_assoc]
  rfl

/-- Sections are told apart, if the first line of the first one is known. -/
theorem eq_of_sections {s : String} {ss ss' : List String} {xs xs' : List (List String)}
    (hss : ∀ line ∈ ss, IsLine line) (hss' : ∀ line ∈ ss', IsLine line)
    (hxs : ∀ x ∈ xs, x ≠ [] ∧ ∀ line ∈ x, IsLine line)
    (hxs' : ∀ x ∈ xs', x ≠ [] ∧ ∀ line ∈ x, IsLine line)
    (h : "\n\n".intercalate ("\n".intercalate (s :: ss) :: xs.map "\n".intercalate) =
      "\n\n".intercalate ("\n".intercalate (s :: ss') :: xs'.map "\n".intercalate)) :
    ss = ss' ∧ xs = xs' := by
  have hchars := congrArg String.toList h
  rw [toList_intercalate_sections fun x hx => (hxs x hx).1,
    toList_intercalate_sections fun x hx => (hxs' x hx).1] at hchars
  have hnewline : ∀ {ss : List String} {xs : List (List String)}, (∀ line ∈ ss, IsLine line) →
      (∀ x ∈ xs, x ≠ [] ∧ ∀ line ∈ x, IsLine line) →
        ∀ line ∈ (ss ++ xs.flatMap ("" :: ·)).map String.toList, '\n' ∉ line := by
    intro ss xs hss hxs
    refine List.forall_mem_map.mpr fun line hline => ?_
    rcases List.mem_append.mp hline with hfirst | hrest
    · exact (hss line hfirst).newline
    · obtain ⟨x, hx, hline⟩ := List.mem_flatMap.mp hrest
      rcases List.mem_cons.mp hline with rfl | hline
      · simp
      · exact ((hxs x hx).2 line hline).newline
  have hempty : ∀ {ss : List String}, (∀ line ∈ ss, IsLine line) → "" ∉ ss :=
    fun hss hmem => (hss "" hmem).nonempty rfl
  -- First the lines are told apart, then the sections at the empty lines.
  have hlines : ss ++ xs.flatMap ("" :: ·) = ss' ++ xs'.flatMap ("" :: ·) := by
    refine List.map_injective_iff.mpr (fun _ _ => String.toList_inj.mp)
      (eq_of_separators (hnewline hss hxs) (hnewline hss' hxs') ?_)
    rw [List.flatMap_map, List.flatMap_map]
    exact List.append_cancel_left hchars
  exact eq_of_separators_append (hempty hss) (hempty hss') (fun x hx => hempty (hxs x hx).2)
    (fun x hx => hempty (hxs' x hx).2) hlines

/-! ## Lists told apart by what is made of their members -/

/-- If members of two lists that come out the same are alike in something, so are the lists. -/
theorem map_eq_map_of_imp {α' β γ : Type} {f : α → β} {f' : α' → β} {g : α → γ} {g' : α' → γ}
    {xs : List α} {ys : List α'} (h : ∀ x ∈ xs, ∀ y ∈ ys, f x = f' y → g x = g' y)
    (heq : xs.map f = ys.map f') : xs.map g = ys.map g' := by
  induction xs generalizing ys with
  | nil => cases ys with
    | nil => rfl
    | cons y ys => cases heq
  | cons x xs ih => cases ys with
    | nil => cases heq
    | cons y ys =>
      obtain ⟨hfirst, hrest⟩ := List.cons_eq_cons.mp heq
      refine List.cons_eq_cons.mpr ⟨h x List.mem_cons_self y List.mem_cons_self hfirst, ih ?_ hrest⟩
      exact fun x' hx' y' hy' => h x' (List.mem_cons_of_mem _ hx') y' (List.mem_cons_of_mem _ hy')

/-- If members of two lists come out the same only if they are the same, so do the lists. -/
theorem eq_of_map_eq {β : Type} {f g : α → β} {xs ys : List α}
    (h : ∀ x ∈ xs, ∀ y ∈ ys, f x = g y → x = y) (heq : xs.map f = ys.map g) :
    xs = ys ∧ ∀ x ∈ xs, f x = g x := by
  have hsame : xs.map id = ys.map id := map_eq_map_of_imp h heq
  rw [List.map_id, List.map_id] at hsame
  subst hsame
  exact ⟨rfl, List.map_inj_left.mp heq⟩

end IcFront
