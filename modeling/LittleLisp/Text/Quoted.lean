/-
# Quoted texts

A text between double quotes, on one line and without unprintable characters:
the usual one-letter escapes, `\x` with two digits for other control characters
below 0x80 and for stray bytes, `\u` with four and `\U` with eight digits for
other unprintable characters. Everything else stands for itself.

Key definitions: `Text.quote`.
-/
import LittleLisp.Text.Printable

namespace LittleLisp

namespace Text

/-- The low `width` hexadecimal digits of `n`, most significant first. -/
def hexDigits : Nat → Nat → List Char
  | 0, _ => []
  | width + 1, n => hexDigits width (n / 16) ++ [Nat.digitChar (n % 16)]

/-- How a character is written between double quotes. -/
def quoteChar (c : Char) : Text :=
  let n := c.toNat
  if c = '"' then "\\\""
  else if c = '\\' then "\\\\"
  else if isPrintable c then String.utf8EncodeChar c
  else if n = 7 then "\\a"
  else if n = 8 then "\\b"
  else if n = 12 then "\\f"
  else if n = 10 then "\\n"
  else if n = 13 then "\\r"
  else if n = 9 then "\\t"
  else if n = 11 then "\\v"
  else if n < 0x20 ∨ n = 0x7F then "\\x" ++ ofChars (hexDigits 2 n)
  else if n < 0x10000 then "\\u" ++ ofChars (hexDigits 4 n)
  else "\\U" ++ ofChars (hexDigits 8 n)

/-- How a glyph is written between double quotes. -/
def quoteGlyph : Glyph → Text
  | .char c => quoteChar c
  | .stray b => "\\x" ++ ofChars (hexDigits 2 b.toNat)

/-- A text between double quotes, with escapes. -/
def quote (t : Text) : Text :=
  "\"" ++ t.glyphs.flatMap quoteGlyph ++ "\""

end Text

end LittleLisp
