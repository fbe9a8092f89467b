/-
# Blank characters

The characters with the Unicode property White_Space: they separate tokens and are
trimmed from the ends of a typed line.

Key definitions: `Text.isBlank`, `Text.trim`.
-/
import LittleLisp.Text

namespace LittleLisp

namespace Text

/-- Whether a character is white space. -/
def isBlank (c : Char) : Bool :=
  let n := c.toNat
  (0x09 ≤ n && n ≤ 0x0D) || n == 0x20 || n == 0x85 || n == 0xA0 || n == 0x1680 ||
    (0x2000 ≤ n && n ≤ 0x200A) || n == 0x2028 || n == 0x2029 || n == 0x202F || n == 0x205F ||
    n == 0x3000

end Text

/-- Whether a glyph is white space. -/
def Glyph.isBlank : Glyph → Bool
  | .char c => Text.isBlank c
  | .stray _ => false

namespace Text

/-- A text without the white space at its two ends. -/
def trim (t : Text) : Text :=
  Glyph.bytes (((t.glyphs.dropWhile Glyph.isBlank).reverse.dropWhile Glyph.isBlank).reverse)

end Text

end LittleLisp
