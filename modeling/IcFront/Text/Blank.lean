/-!
# Blank characters

Two sets of blanks matter. Between tokens only the ASCII blanks count as layout
(`isLayout`); between the two brackets of an array type every blank of Unicode
may stand (`isBlank`).
-/

namespace IcFront

/-- The blanks that separate tokens: space, tab, form feed and the two line
characters. -/
def isLayout (c : Char) : Bool :=
  c = ' ' || c = '\t' || c = '\x0c' || c = '\r' || c = '\n'

/-- The blanks of Unicode: the characters of the separator categories, the
control characters from tab to carriage return and from file separator to unit
separator, and next line. -/
def isBlank (c : Char) : Bool :=
  let n := c.toNat
  (0x09 ≤ n && n ≤ 0x0d) || (0x1c ≤ n && n ≤ 0x20) || n = 0x85 || n = 0xa0 || n = 0x1680 ||
    (0x2000 ≤ n && n ≤ 0x200a) || n = 0x2028 || n = 0x2029 || n = 0x202f || n = 0x205f ||
    n = 0x3000

/-- Layout is blank. -/
theorem isBlank_of_isLayout {c : Char} (h : isLayout c = true) : isBlank c = true := by
  simp only [isLayout, Bool.or_eq_true, decide_eq_true_eq] at h
  rcases h with (((rfl | rfl) | rfl) | rfl) | rfl <;> decide

end IcFront
