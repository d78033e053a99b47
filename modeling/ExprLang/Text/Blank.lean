/-
# White space

The characters with the Unicode property White_Space, and the trimming of a
text's end by it.  Main statements: every blank of the language is white space
(`isBlank_of_isWhitespace`) and a trimmed text ends in none
(`isBlank_getLast_trimEnd`).
-/
import ExprLang.Text.Ranges

namespace ExprLang.Text

/-- The characters with the property White_Space. -/
def whiteSpace : RangeSet where
  ranges :=
    [(0x9, 0xd), (0x20, 0x20), (0x85, 0x85), (0xa0, 0xa0), (0x1680, 0x1680), (0x2000, 0x200a),
      (0x2028, 0x2029), (0x202f, 0x202f), (0x205f, 0x205f), (0x3000, 0x3000)]

/-- The size that the property has in the standard. -/
example : whiteSpace.size = 25 := by
  decide

/-- Whether a character has the property White_Space. -/
def isBlank (c : Char) : Bool :=
  whiteSpace.contains c

/-- Spaces, tabs and line ends are white space. -/
theorem isBlank_of_isWhitespace {c : Char} (h : c.isWhitespace) : isBlank c := by
  simp only [Char.isWhitespace, Bool.or_eq_true, decide_eq_true_eq] at h
  rcases h with ((rfl | rfl) | rfl) | rfl <;> decide

/-- A text without the white space at its end. -/
def trimEnd (cs : List Char) : List Char :=
  (cs.reverse.dropWhile isBlank).reverse

/-- A trimmed text is a beginning of the text: only white space is cut off. -/
theorem trimEnd_append (cs : List Char) :
    trimEnd cs ++ (cs.reverse.takeWhile isBlank).reverse = cs := by
  rw [trimEnd, ← List.reverse_append, List.takeWhile_append_dropWhile, List.reverse_reverse]

/-- A trimmed text does not end in white space. -/
theorem isBlank_getLast_trimEnd {cs : List Char} {c : Char}
    (h : (trimEnd cs).getLast? = some c) : isBlank c = false := by
  rw [trimEnd, List.getLast?_reverse] at h
  have hhead := List.head?_dropWhile_not isBlank cs.reverse
  rw [h] at hhead
  simpa using hhead

end ExprLang.Text
