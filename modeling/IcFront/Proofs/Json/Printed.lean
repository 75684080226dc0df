import IcFront.Proofs.Json.Reader
import IcFront.Proofs.Syntax.Spelling
import IcFront.Syntax.Json
import Mathlib.Data.List.TakeWhile

/-!
# The tokens of printed JSON

A text has tokens of its own (`Cuts`) if it is cut into these wherever it stands. What goes
before it does not matter, but a word or number could go on in what follows, so that has to
start with a sign, a quote or a blank, or be empty. Texts with tokens of their own can be
put one after the other (`Cuts.append`), and so this is followed from the small to the large:
texts in quotes, numbers and words, and members in brackets (`cuts_bracketed`), which are
members of others again.

In quotes each character is written with the codes that it is read from (`codes?_escapeChar`,
`chars?_codesOf`): one code, or two halves.
-/

namespace IcFront

namespace Json

/-! ## Cutting -/

variable {c : Char} {cs cs' rest : List Char} {t : Token} {ts ts' : List Token} {v : Value}

theorem tokens?_space (h : isSpace c = true) (rest : List Char) :
    tokens? (c :: rest) = tokens? rest := by
  rw [tokens?, if_pos h]

theorem sign?_eq_none_of_isSpace (h : isSpace c = true) : sign? c = none := by
  simp only [isSpace, Bool.or_eq_true, decide_eq_true_eq] at h
  rcases h with ((rfl | rfl) | rfl) | rfl <;> rfl

theorem tokens?_sign (h : sign? c = some t) (rest : List Char) :
    tokens? (c :: rest) = (tokens? rest).map (t :: ·) := by
  have hspace : ¬ isSpace c = true := by
    intro hspace
    rw [sign?_eq_none_of_isSpace hspace] at h
    cases h
  have hquote : c ≠ '"' := by
    rintro rfl
    cases h
  rw [tokens?, if_neg hspace, if_neg hquote]
  split
  next t' ht =>
    obtain rfl := Option.some.inj (ht.symm.trans h)
    rfl
  next hnone =>
    rw [hnone] at h
    cases h

theorem tokens?_quote {codes : List Nat} {value : List Char}
    (hcodes : codes? cs = some (codes, rest)) (hvalue : chars? codes = some value) :
    tokens? ('"' :: cs) = (tokens? rest).map (.text (String.ofList value) :: ·) := by
  rw [tokens?, if_neg (by decide), if_pos rfl]
  split
  next hnone => rw [hnone] at hcodes; cases hcodes
  next codes' rest' hread =>
    obtain ⟨rfl, rfl⟩ := Prod.mk.inj (Option.some.inj (hread.symm.trans hcodes))
    rw [hvalue, Option.bind_some]

/-- A run of one sort ends where something of another sort follows. -/
theorem while_append {p : Char → Bool} (hcs : ∀ d ∈ cs, p d = true)
    (hrest : ∀ d ∈ rest.head?, p d = false) :
    (cs ++ rest).takeWhile p = cs ∧ (cs ++ rest).dropWhile p = rest := by
  rw [List.takeWhile_append_of_pos hcs, List.dropWhile_append_of_pos hcs]
  cases rest with
  | nil => exact ⟨List.append_nil _, rfl⟩
  | cons d ds =>
    have hd : ¬ p d = true := by simpa using hrest d rfl
    rw [List.takeWhile_cons_of_neg hd, List.dropWhile_cons_of_neg hd]
    exact ⟨List.append_nil _, rfl⟩

theorem tokens?_bare (hcs : ∀ d ∈ cs, isBare d = true) (hne : cs ≠ [])
    (hrest : ∀ d ∈ rest.head?, isBare d = false) (hv : bare? cs = some v) :
    tokens? (cs ++ rest) = (tokens? rest).map (.bare v :: ·) := by
  obtain ⟨c, word, rfl⟩ := List.exists_cons_of_ne_nil hne
  have hc := hcs c List.mem_cons_self
  simp only [isBare, Bool.not_eq_true', Bool.or_eq_false_iff, decide_eq_false_iff_not] at hc
  obtain ⟨⟨hspace, hsign⟩, hquote⟩ := hc
  have hword : ∀ d ∈ word, isBare d = true := fun d hd => hcs d (List.mem_cons_of_mem _ hd)
  obtain ⟨htake, hdrop⟩ := while_append hword hrest
  rw [List.cons_append, tokens?, if_neg (Bool.eq_false_iff.mp hspace), if_neg hquote]
  split
  next t ht =>
    rw [ht] at hsign
    cases hsign
  next => rw [htake, hdrop, hv, Option.bind_some]

/-- A text is cut into tokens wherever it stands, if no word or number goes on after it. -/
def Cuts (cs : List Char) (ts : List Token) : Prop :=
  ∀ rest : List Char, (∀ d ∈ rest.head?, isBare d = false) →
    tokens? (cs ++ rest) = (tokens? rest).map (ts ++ ·)

theorem Cuts.append (h : Cuts cs ts) (h' : Cuts cs' ts')
    (hcut : ∀ d ∈ cs'.head?, isBare d = false) : Cuts (cs ++ cs') (ts ++ ts') := by
  intro rest hrest
  have hends : ∀ d ∈ (cs' ++ rest).head?, isBare d = false := by
    cases cs' with
    | nil => exact hrest
    | cons => exact hcut
  rw [List.append_assoc, h _ hends, h' _ hrest, Option.map_map]
  congr 1
  funext x
  exact (List.append_assoc ts ts' x).symm

theorem cuts_nil : Cuts [] [] := fun rest _ => (congrFun Option.map_id (tokens? rest)).symm

theorem Cuts.space (h : Cuts cs ts) (hc : isSpace c = true) : Cuts (c :: cs) ts :=
  fun rest hrest => (tokens?_space hc _).trans (h rest hrest)

theorem Cuts.sign (h : Cuts cs ts) (hc : sign? c = some t) : Cuts (c :: cs) (t :: ts) := by
  intro rest hrest
  rw [List.cons_append, tokens?_sign hc, h rest hrest, Option.map_map]
  rfl

/-! ## Strings -/

/-- The codes that a character is written with. -/
def codesOf (c : Char) : List Nat :=
  let n := c.toNat
  if n < 0x10000 then [n]
  else [0xd800 + (n - 0x10000) / 0x400, 0xdc00 + (n - 0x10000) % 0x400]

theorem hexValue?_hexDigit (n : Nat) : hexValue? (hexDigit n) = some (n % 16) := by
  have hdigits : ∀ k < 16, hexValue? (Nat.digitChar k) = some k := by decide
  exact hdigits (n % 16) (Nat.mod_lt n (by decide))

theorem codes?_unitEscape {n : Nat} (hn : n < 0x10000) (rest : List Char) :
    codes? (unitEscape n ++ rest) = (codes? rest).map (before n) := by
  have hunit : unit? (hexDigit (n / 4096)) (hexDigit (n / 256)) (hexDigit (n / 16)) (hexDigit n) =
      some n := by
    have hsum :
        4096 * (n / 4096 % 16) + 256 * (n / 256 % 16) + 16 * (n / 16 % 16) + n % 16 = n := by
      omega
    simp only [unit?, hexValue?_hexDigit, Option.pure_def, Option.bind_eq_bind, Option.bind_some,
      hsum]
  show codes? ('\\' :: 'u' :: _ :: _ :: _ :: _ :: rest) = _
  rw [codes?, if_neg (by decide), if_pos rfl]
  simp only [if_true, hunit, Option.bind_some]

theorem codes?_shortEscape {e : Char} (hc : shortEscape? e = some c) (rest : List Char) :
    codes? ('\\' :: e :: rest) = (codes? rest).map (before c.toNat) := by
  have hu : e ≠ 'u' := by
    rintro rfl
    cases hc
  conv_lhs => rw [codes?.eq_def]
  dsimp only
  rw [if_neg (by decide), if_pos rfl, if_neg hu, hc, Option.bind_some]

/-- Codes in front of those that are read, with the text after them. -/
def beforeAll (codes : List Nat) (read : List Nat × List Char) : List Nat × List Char :=
  (codes ++ read.1, read.2)

theorem codes?_unitEscapes (c : Char) (rest : List Char) :
    codes? (unitEscapes c ++ rest) = (codes? rest).map (beforeAll (codesOf c)) := by
  have hlt : c.toNat < 0x110000 := by
    have := c.valid
    have hnat : c.toNat = c.val.toNat := rfl
    rcases this with h | h <;> omega
  unfold unitEscapes codesOf
  dsimp only
  split
  next hn => exact codes?_unitEscape hn rest
  next =>
    rw [List.append_assoc, codes?_unitEscape (by omega), codes?_unitEscape (by omega),
      Option.map_map]
    rfl

theorem codes?_escapeChar (c : Char) (rest : List Char) :
    codes? (escapeChar c ++ rest) = (codes? rest).map (beforeAll (codesOf c)) := by
  fun_cases escapeChar c with
  | case1 | case2 | case3 | case4 | case5 | case6 | case7 =>
    subst_vars
    exact codes?_shortEscape rfl rest
  | case8 hquote hslash _ _ _ _ _ hshown =>
    have hcodes : codesOf c = [c.toNat] := if_pos (by omega)
    rw [hcodes, List.cons_append, List.nil_append, codes?.eq_def]
    dsimp only
    rw [if_neg hquote, if_neg hslash, if_neg (by omega)]
    rfl
  | case9 => exact codes?_unitEscapes c rest

theorem chars?_codesOf (c : Char) (codes : List Nat) :
    chars? (codesOf c ++ codes) = (chars? codes).map (c :: ·) := by
  -- No character has the code of a half, so one code is never taken for the first of two.
  have hvalid : c.toNat < 0xd800 ∨ (0xdfff < c.toNat ∧ c.toNat < 0x110000) := c.valid
  have htrail : ∀ n, isTrail n = true ↔ 0xdc00 ≤ n ∧ n < 0xe000 := by simp [isTrail]
  have hlead : ∀ n, isLead n = true ↔ 0xd800 ≤ n ∧ n < 0xdc00 := by simp [isLead]
  unfold codesOf
  dsimp only
  split
  next hn =>
    rw [List.cons_append, List.nil_append, chars?.eq_def]
    dsimp only
    rw [if_neg (by rw [htrail]; omega), if_neg (by rw [hlead]; omega), Char.ofNat_toNat]
  next hn =>
    have hjoined : 0x10000 + 0x400 * (0xd800 + (c.toNat - 0x10000) / 0x400 - 0xd800) +
        (0xdc00 + (c.toNat - 0x10000) % 0x400 - 0xdc00) = c.toNat := by
      omega
    rw [List.cons_append, List.cons_append, List.nil_append, chars?.eq_def]
    dsimp only
    rw [if_neg (by rw [htrail]; omega), if_pos (by rw [hlead]; omega),
      if_pos (by rw [htrail]; omega), hjoined, Char.ofNat_toNat]

/-- A quoted text is one token, whatever follows it. -/
theorem tokens?_quoted (s : String) (rest : List Char) :
    tokens? (quote s ++ rest) = (tokens? rest).map (.text s :: ·) := by
  have hcodes : ∀ cs : List Char, codes? (cs.flatMap escapeChar ++ '"' :: rest) =
      some (cs.flatMap codesOf, rest) := by
    intro cs
    induction cs with
    | nil =>
      show codes? ('"' :: rest) = some ([], rest)
      rw [codes?.eq_def]
      exact if_pos rfl
    | cons c cs ih =>
      rw [List.flatMap_cons, List.append_assoc, codes?_escapeChar, ih]
      rfl
  have hchars : ∀ cs : List Char, chars? (cs.flatMap codesOf) = some cs := by
    intro cs
    induction cs with
    | nil => rfl
    | cons c cs ih =>
      rw [List.flatMap_cons, chars?_codesOf, ih]
      rfl
  have hquote : quote s ++ rest = '"' :: (s.toList.flatMap escapeChar ++ '"' :: rest) := by
    simp [quote]
  rw [hquote, tokens?_quote (hcodes _) (hchars _), String.ofList_toList]

theorem cuts_quoted (s : String) : Cuts (quote s) [.text s] := fun rest _ => tokens?_quoted s rest

/-! ## Numbers -/

/-- Only the number 0 is written with a 0 in front. -/
theorem eq_zero_of_head?_toDigits {n : Nat} (h : (Nat.toDigits 10 n).head? = some '0') :
    n = 0 := by
  induction n using Nat.strongRecOn with
  | ind n ih =>
    rcases Nat.lt_or_ge n 10 with hlt | hge
    · rw [Nat.toDigits_of_lt_base hlt] at h
      have hdigit : ∀ k < 10, Nat.digitChar k = '0' → k = 0 := by decide
      exact hdigit n hlt (Option.some.inj h)
    · -- The first digit stays when the last one is cut off.
      rw [Nat.toDigits_of_base_le (by decide) hge,
        List.head?_append_of_ne_nil _ Nat.toDigits_ne_nil] at h
      have := ih (n / 10) (by omega) h
      omega

theorem magnitude?_toString (n : Nat) : magnitude? (toString n).toList = some (n, 0) := by
  have htake := List.takeWhile_eq_self_iff.mpr (isDigit_toString n)
  have hdrop := List.dropWhile_eq_nil_iff.mpr (isDigit_toString n)
  have hvalue := digitsValue_toString n
  have hwhole : ¬((toString n).toList = [] ∨
      ((toString n).toList.head? = some '0' ∧ (toString n).toList ≠ ['0'])) := by
    rw [Nat.toString_eq_ofList_toDigits, String.toList_ofList]
    rintro (hnil | ⟨hhead, hne⟩)
    · exact Nat.toDigits_ne_nil hnil
    · obtain rfl := eq_zero_of_head?_toDigits hhead
      exact hne rfl
  generalize (toString n).toList = cs at htake hdrop hvalue hwhole
  unfold magnitude?
  rw [htake, hdrop, if_neg hwhole]
  show some (digitsValue (cs ++ []), _) = _
  rw [List.append_nil, hvalue]
  rfl

theorem number?_of_isDigit {cs : List Char} (h : ∀ c ∈ cs, isDigit c = true) :
    number? cs = (magnitude? cs).map fun x => .number x.1 x.2 := by
  unfold number?
  split
  next => exact absurd (h '-' List.mem_cons_self) (by decide)
  next => rfl

theorem toList_negSucc (n : Nat) :
    (toString (Int.negSucc n)).toList = '-' :: (toString (n + 1)).toList := by
  show ("-" ++ toString (n + 1)).toList = _
  rw [String.toList_append]
  rfl

theorem number?_toString (n : Int) : number? (toString n).toList = some (.number n 0) := by
  cases n with
  | ofNat n =>
    show number? (toString n).toList = _
    rw [number?_of_isDigit (isDigit_toString n), magnitude?_toString]
    rfl
  | negSucc n =>
    rw [toList_negSucc, number?, magnitude?_toString]
    rfl

theorem isBare_of_isDigit (h : isDigit c = true) : isBare c = true := by
  have hne : ∀ d, isDigit d = false → c ≠ d := by
    rintro d hd rfl
    rw [hd] at h
    cases h
  simp [isBare, isSpace, sign?, hne ' ' rfl, hne '\t' rfl, hne '\n' rfl, hne '\r' rfl, hne '[' rfl,
    hne ']' rfl, hne '\x7b' rfl, hne '\x7d' rfl, hne ',' rfl, hne ':' rfl, hne '"' rfl]

/-- A number is written in digits, after a minus if it is negative. -/
theorem digits_of_int (n : Int) :
    ∀ c ∈ (toString n).toList, isDigit c = true ∨ c = '-' := by
  cases n with
  | ofNat n => exact fun c hc => .inl (isDigit_toString n c hc)
  | negSucc n =>
    rw [toList_negSucc]
    exact List.forall_mem_cons.mpr ⟨.inr rfl, fun c hc => .inl (isDigit_toString (n + 1) c hc)⟩

theorem cuts_int (n : Int) : Cuts (toString n).toList [.bare (.number n 0)] := by
  have hdigits := digits_of_int n
  have hnumber := number?_toString n
  generalize (toString n).toList = cs at hdigits hnumber
  -- A word has letters in it, which are neither digits nor a minus.
  have hword : ∀ {word : List Char} {c : Char}, c ∈ word → isDigit c = false → c ≠ '-' →
      cs ≠ word := by
    rintro word c hc hdigit hminus rfl
    rcases hdigits c hc with h | h
    · rw [hdigit] at h
      cases h
    · exact hminus h
  have hbare : bare? cs = some (.number n 0) := by
    rw [bare?, if_neg (hword (c := 'n') (by decide) rfl (by decide)),
      if_neg (hword (c := 't') (by decide) rfl (by decide)),
      if_neg (hword (c := 'f') (by decide) rfl (by decide)), hnumber]
  have hne : cs ≠ [] := by
    rintro rfl
    cases hnumber
  refine fun rest hrest => tokens?_bare (fun d hd => ?_) hne hrest hbare
  rcases hdigits d hd with h | rfl
  · exact isBare_of_isDigit h
  · rfl

theorem cuts_null : Cuts "null".toList [.bare .null] :=
  fun _ hrest => tokens?_bare (List.all_eq_true.mp rfl) (by decide) hrest rfl

theorem cuts_bool (b : Bool) : Cuts (if b then "true" else "false").toList [.bare (.bool b)] := by
  intro rest hrest
  cases b with
  | true => exact tokens?_bare (List.all_eq_true.mp rfl) (by decide) hrest rfl
  | false => exact tokens?_bare (List.all_eq_true.mp rfl) (by decide) hrest rfl

/-! ## Arrays and objects -/

theorem Cuts.lineBreak (h : Cuts cs ts) (level : Nat) : Cuts (newline level ++ cs) ts := by
  have hblanks : ∀ n, Cuts (List.replicate n ' ' ++ cs) ts := by
    intro n
    induction n with
    | zero => exact h
    | succ n ih => exact ih.space rfl
  exact (hblanks (2 * level)).space rfl

theorem cuts_pair {value : List Char} (name : String) (h : Cuts value ts) :
    Cuts (pair name value) (.text name :: .colon :: ts) := by
  have hrest : Cuts (':' :: ' ' :: value) (.colon :: ts) := (h.space rfl).sign rfl
  have hcut : ∀ d ∈ (':' :: ' ' :: value).head?, isBare d = false := by
    rintro d ⟨⟩
    rfl
  have hpair := (cuts_quoted name).append hrest hcut
  rwa [pair, List.append_assoc]

/-- What follows the first member in brackets: further ones, a comma before each, and the
closing bracket. -/
def further (level : Nat) (closing : Char) (members : List (List Char)) : List Char :=
  members.flatMap (fun member => ',' :: newline (level + 1) ++ member) ++ newline level ++ [closing]

theorem bracketed_cons (level : Nat) (opening closing : Char) (first : List Char)
    (members : List (List Char)) :
    bracketed level opening closing (first :: members) =
      opening :: (newline (level + 1) ++ (first ++ further level closing members)) := by
  simp only [bracketed, further, List.cons_append, List.append_assoc]

theorem further_cons (level : Nat) (closing : Char) (first : List Char)
    (members : List (List Char)) :
    further level closing (first :: members) =
      ',' :: (newline (level + 1) ++ (first ++ further level closing members)) := by
  simp only [further, List.flatMap_cons, List.cons_append, List.append_assoc]

section Bracketed

variable {opening closing : Char} {t' : Token} {members : List (List Char)}
  {tokens : List (List Token)} (h : List.Forall₂ Cuts members tokens) (level : Nat)
include h

/-- A member and what follows it. -/
theorem Cuts.further_append (hfirst : Cuts cs ts)
    (hfurther : Cuts (further level closing members) ts') :
    Cuts (newline (level + 1) ++ (cs ++ further level closing members)) (ts ++ ts') := by
  refine (hfirst.append hfurther fun d hd => ?_).lineBreak (level + 1)
  cases h with
  | nil =>
    cases hd
    rfl
  | cons =>
    cases hd
    rfl

theorem cuts_further (hclosing : sign? closing = some t') :
    Cuts (further level closing members) (tokens.flatMap (.comma :: ·) ++ [t']) := by
  have hend : Cuts [closing] [t'] := cuts_nil.sign hclosing
  induction h with
  | nil => exact hend.lineBreak level
  | @cons first firstTokens members tokens hfirst hmembers ih =>
    rw [further_cons, List.flatMap_cons, List.cons_append, List.cons_append, List.append_assoc]
    exact (hfirst.further_append hmembers level ih).sign rfl

/-- Members in brackets, with commas between them. -/
theorem cuts_bracketed (hopening : sign? opening = some t) (hclosing : sign? closing = some t') :
    Cuts (bracketed level opening closing members)
      (t :: separated .comma tokens ++ [t']) := by
  cases h with
  | nil => exact (cuts_nil.sign hclosing).sign hopening
  | @cons first firstTokens members tokens hfirst hmembers =>
    rw [bracketed_cons, separated, List.cons_append, List.append_assoc]
    exact (hfirst.further_append hmembers level
      (cuts_further hmembers level hclosing)).sign hopening

end Bracketed

end Json

end IcFront
