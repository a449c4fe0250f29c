/-
# Blank characters

Version texts, predicates and their terms may be surrounded by blanks.  A
character is blank when it has the Unicode property `White_Space`; the property
holds of 25 characters, listed here in full as ranges.  The list contains every
character that `Char.isWhitespace` knows, which is ASCII alone.
-/

namespace Loadout
namespace Text

/-- The characters with the Unicode property `White_Space`, as closed ranges of
code points in ascending order. -/
def blankRanges : List (Nat × Nat) :=
  [(0x0009, 0x000D), (0x0020, 0x0020), (0x0085, 0x0085), (0x00A0, 0x00A0), (0x1680, 0x1680),
   (0x2000, 0x200A), (0x2028, 0x2029), (0x202F, 0x202F), (0x205F, 0x205F), (0x3000, 0x3000)]

/-- Whether a character is white space in the sense of Unicode. -/
def isBlank (c : Char) : Bool :=
  blankRanges.any fun r => r.1 ≤ c.toNat && c.toNat ≤ r.2

/-- The property holds of 25 characters. -/
example : (blankRanges.map fun r => r.2 + 1 - r.1).sum = 25 := by decide

/-- A text without the blanks at its two ends. -/
def trim (s : List Char) : List Char :=
  ((s.dropWhile isBlank).reverse.dropWhile isBlank).reverse

/-- What is left after trimming starts with no blank. -/
theorem isBlank_head_trim {s : List Char} {c : Char} (h : (trim s).head? = some c) :
    isBlank c = false := by
  have key : ∀ l : List Char, (l.dropWhile isBlank).head? = some c → isBlank c = false := by
    intro l hl
    have := List.head?_dropWhile_not isBlank l
    rw [hl] at this
    simpa using this
  refine key s ?_
  unfold trim at h
  generalize s.dropWhile isBlank = t at h
  have hs : (t.reverse.dropWhile isBlank).reverse <+: t := by
    have := List.dropWhile_suffix isBlank (l := t.reverse)
    simpa using List.reverse_prefix.mpr this
  obtain ⟨u, hu⟩ := hs
  rw [← hu, List.head?_append, h]
  rfl

/-- `s` cut at every place where the text `||` starts, read from the left. -/
def splitAlternatives : List Char → List (List Char)
  | [] => [[]]
  | '|' :: '|' :: rest => [] :: splitAlternatives rest
  | c :: rest =>
    match splitAlternatives rest with
    | [] => [[c]]
    | first :: others => (c :: first) :: others

/-- There is always at least one piece. -/
theorem splitAlternatives_ne_nil (s : List Char) : splitAlternatives s ≠ [] := by
  fun_cases splitAlternatives s <;> simp_all

end Text
end Loadout
