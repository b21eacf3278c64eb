import FlatScope.Text

/-!
# Blanks and line ends

White space in the sense of Unicode (with the four information separators), and the code points
that end a line of a message.
-/

namespace FlatScope.Text

/-- White space. -/
def isBlank (c : CodePoint) : Bool :=
  (0x9 ≤ c && c ≤ 0xD) || (0x1C ≤ c && c ≤ 0x20) || c == 0x85 || c == 0xA0 || c == 0x1680 ||
    (0x2000 ≤ c && c ≤ 0x200A) || c == 0x2028 || c == 0x2029 || c == 0x202F || c == 0x205F ||
    c == 0x3000

/-- A code point that ends a line. -/
def isLineEnd (c : CodePoint) : Bool :=
  (0xA ≤ c && c ≤ 0xD) || (0x1C ≤ c && c ≤ 0x1E) || c == 0x85 || c == 0x2028 || c == 0x2029

/-- The text up to its first line end. -/
def firstLine (t : Text) : Text := t.takeWhile (!isLineEnd ·)

end FlatScope.Text
