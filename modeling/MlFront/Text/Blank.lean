import MlFront.Text.CharRange

/-!
# Blank characters

`isBlank` is the White_Space property of Unicode: tabs, line breaks, spaces of
every width. Zero-width characters (U+200B, U+FEFF) and the information
separators (U+001C to U+001F) are not in it. `trim` cuts blanks at both ends.
-/

namespace MlFront

/-- The code points with the White_Space property. -/
def blankRanges : List CharRange :=
  [⟨0x9, 0xD⟩, ⟨0x20, 0x20⟩, ⟨0x85, 0x85⟩, ⟨0xA0, 0xA0⟩, ⟨0x1680, 0x1680⟩, ⟨0x2000, 0x200A⟩,
    ⟨0x2028, 0x2029⟩, ⟨0x202F, 0x202F⟩, ⟨0x205F, 0x205F⟩, ⟨0x3000, 0x3000⟩]

/-- Whether the character is White_Space. -/
def isBlank (c : Char) : Bool :=
  CharRange.cover blankRanges c

/-- The text without the blanks at its two ends. -/
def trim (chars : List Char) : List Char :=
  ((chars.dropWhile isBlank).reverse.dropWhile isBlank).reverse

theorem isBlank_of_isWhitespace {c : Char} (h : c.isWhitespace = true) : isBlank c = true := by
  simp only [Char.isWhitespace, Bool.or_eq_true, decide_eq_true_eq] at h
  rcases h with ((rfl | rfl) | rfl) | rfl <;> decide

end MlFront
