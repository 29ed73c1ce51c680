import WordPattern.Text.Ranges

/-!
# White space

The characters with the property White_Space of the Unicode standard. A reader
of extended patterns skips them, so a writer has to give them by number.
-/

namespace WordPattern.Text

/-- The ranges of White_Space. -/
def blankRanges : Ranges :=
  [(0x9, 0xD), (0x20, 0x20), (0x85, 0x85), (0xA0, 0xA0), (0x1680, 0x1680), (0x2000, 0x200A),
   (0x2028, 0x2029), (0x202F, 0x202F), (0x205F, 0x205F), (0x3000, 0x3000)]

/-- Whether the character is white space. -/
def isBlank (c : Char) : Bool := blankRanges.has c

end WordPattern.Text
