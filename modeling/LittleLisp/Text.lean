/-
# Texts

The language reads and writes bytes, and nothing obliges those bytes to be
well-formed UTF-8: a name, a keyword or a computed string may hold any of them.
A `Text` is therefore a list of bytes. Where characters matter (columns, string
literals, quoting, `count`), a text is read as a list of glyphs, each a character
or one byte that belongs to no character.

Key definitions: `Text.ofString`, `Glyph`, `Text.glyphs`, `Glyph.bytes`.
Key theorems: `Text.bytes_glyphs`, reading a text as glyphs loses nothing.
-/

namespace LittleLisp

/-- A sequence of bytes, usually but not always UTF-8. -/
abbrev Text := List UInt8

/-- One character of a text, or one byte that is part of no character. -/
inductive Glyph where
  | char (c : Char)
  | stray (b : UInt8)
  deriving DecidableEq

namespace Glyph

/-- The bytes a glyph stands for. -/
def encode : Glyph → Text
  | .char c => String.utf8EncodeChar c
  | .stray b => [b]

/-- The bytes a run of glyphs stands for. -/
def bytes (gs : List Glyph) : Text := gs.flatMap encode

/-- The character of a glyph, a stray byte standing for the replacement character. -/
def repaired : Glyph → Char
  | .char c => c
  | .stray _ => '\uFFFD'

@[simp] theorem bytes_nil : bytes [] = [] := rfl

@[simp] theorem bytes_cons (g : Glyph) (gs : List Glyph) :
    bytes (g :: gs) = g.encode ++ bytes gs := rfl

@[simp] theorem bytes_append (gs hs : List Glyph) : bytes (gs ++ hs) = bytes gs ++ bytes hs := by
  simp [bytes]

end Glyph

namespace Text

/-- The bytes of a string of characters. -/
def ofChars (cs : List Char) : Text := cs.flatMap String.utf8EncodeChar

/-- The bytes of a string. -/
def ofString (s : String) : Text := ofChars s.toList

instance : Coe String Text := ⟨ofString⟩

instance : LawfulBEq Text := inferInstanceAs (LawfulBEq (List UInt8))

/-- A number in decimal notation. -/
def ofNat (n : Nat) : Text := ofChars (Nat.toDigits 10 n)

/-- An integer in decimal notation. -/
def ofInt : Int → Text
  | .ofNat n => ofNat n
  | .negSucc n => "-" ++ ofNat (n + 1)

/-! ### Reading characters -/

/-- The only character that can be encoded as the bytes `a b`. -/
def pairChar (a b : UInt8) : Char :=
  Char.ofNat (a.toNat % 32 * 64 + b.toNat % 64)

/-- The only character that can be encoded as the bytes `a b c`. -/
def tripleChar (a b c : UInt8) : Char :=
  Char.ofNat (a.toNat % 16 * 4096 + b.toNat % 64 * 64 + c.toNat % 64)

/-- The only character that can be encoded as the bytes `a b c d`. -/
def quadChar (a b c d : UInt8) : Char :=
  Char.ofNat (a.toNat % 8 * 262144 + b.toNat % 64 * 4096 + c.toNat % 64 * 64 + d.toNat % 64)

/-- The glyphs of a text. A byte that starts no encoded character is a glyph of its own, and
reading goes on with the next byte. -/
def glyphs : Text → List Glyph
  | [] => []
  | a :: rest =>
    if a < 0x80 then .char (Char.ofNat a.toNat) :: glyphs rest
    else match rest with
    | [] => [.stray a]
    | b :: rest₁ =>
      if String.utf8EncodeChar (pairChar a b) = [a, b] then .char (pairChar a b) :: glyphs rest₁
      else match rest₁ with
      | [] => .stray a :: glyphs [b]
      | c :: rest₂ =>
        if String.utf8EncodeChar (tripleChar a b c) = [a, b, c] then
          .char (tripleChar a b c) :: glyphs rest₂
        else match rest₂ with
        | [] => .stray a :: glyphs [b, c]
        | d :: rest₃ =>
          if String.utf8EncodeChar (quadChar a b c d) = [a, b, c, d] then
            .char (quadChar a b c d) :: glyphs rest₃
          else .stray a :: glyphs (b :: c :: d :: rest₃)

/-- The encoding of a character below 0x80 is its byte. -/
theorem encode_ascii {a : UInt8} (h : a < 0x80) :
    String.utf8EncodeChar (Char.ofNat a.toNat) = [a] := by
  have ha : a.toNat < 128 := by simpa using UInt8.lt_iff_toNat_lt.mp h
  have hv : a.toNat.isValidChar := Or.inl (by omega)
  have hc : (Char.ofNat a.toNat).val.toNat = a.toNat := by
    rw [show Char.ofNat a.toNat = Char.ofNatAux a.toNat hv from dif_pos hv]
    rfl
  simp [String.utf8EncodeChar, hc, show a.toNat ≤ 127 by omega]

/-- Reading a text as glyphs loses nothing. -/
theorem bytes_glyphs (t : Text) : Glyph.bytes t.glyphs = t := by
  fun_induction glyphs t <;> simp_all [Glyph.encode, encode_ascii]

/-- How many characters a text has, a stray byte counting as one. -/
def runeCount (t : Text) : Nat := t.glyphs.length

/-! ### Order, search and joining -/

/-- The bytewise order. -/
def le : Text → Text → Bool
  | [], _ => true
  | _ :: _, [] => false
  | a :: s, b :: t => a < b || (a == b && le s t)

/-- Whether `t` is longer than `start` and begins with it. -/
def extendedBy (start t : Text) : Bool :=
  decide (start.length < t.length) && start.isPrefixOf t

/-- The parts one after the other. -/
def concat (parts : List Text) : Text := parts.flatten

/-- The parts with `sep` between neighbours. -/
def join (sep : Text) (parts : List Text) : Text := sep.intercalate parts

/-- The texts in bytewise order. -/
def sort (ts : List Text) : List Text := ts.mergeSort le

end Text

end LittleLisp
