/-
# Printed strings

A string is printed between double quotes, with an escape for each character that is not printable.
The reader knows a line break and a tab by their escapes; of any other escape it drops the backslash
and takes the rest as it stands. So a printed string is always read as one literal, but only
`\"`, `\\`, `\n` and `\t` come back as what they were printed for. The string is read back as
itself exactly when none of the other escapes is in it; where one is, a letter stands in its place.

Key definitions: `Glyph.survives`, `Glyph.reread`, `Text.reread`.
Key theorems: `Reader.exists_escape`, `Text.reread_eq_iff`, `Reader.printed_string_reread`.
-/
import LittleLisp.Proofs.Reading.Sigils
import LittleLisp.Proofs.Reading.Strings
import LittleLisp.Value.Text

namespace LittleLisp

/-- Whether a glyph of a string is still there after printing and reading. -/
def Glyph.survives : Glyph → Bool
  | .char c => Text.isPrintable c || c == '\n' || c == '\t'
  | .stray _ => false

/-- What is read for a printed glyph: the glyph, or its escape without the backslash. -/
def Glyph.reread (g : Glyph) : Text := if g.survives then g.encode else (Text.quoteGlyph g).tail

/-- What is read for a printed string. -/
def Text.reread (t : Text) : Text := t.glyphs.flatMap Glyph.reread

namespace Reader

variable {r : Reader} {g : Glyph}

/-! ### Escapes -/

/-- The characters of an escape that are no part of any other. -/
def PlainDigits (ds : List Char) : Prop := ∀ d ∈ ds, d ≠ '"' ∧ d ≠ '\\'

theorem plainDigits_hexDigits : ∀ width n : Nat, PlainDigits (Text.hexDigits width n)
  | 0, _ => by simp [PlainDigits, Text.hexDigits]
  | width + 1, n => by
    have hdigit : ∀ k < 16, Nat.digitChar k ≠ '"' ∧ Nat.digitChar k ≠ '\\' := by decide
    intro d hd
    rcases List.mem_append.mp hd with hd | hd
    · exact plainDigits_hexDigits width (n / 16) d hd
    · rw [List.mem_singleton.mp hd]
      exact hdigit (n % 16) (Nat.mod_lt n (by omega))

/-- The letters of the escapes that the reader does not know. -/
def escapeLetters : List Char := ['a', 'b', 'f', 'r', 'v', 'x', 'u', 'U']

/-- A glyph that does not survive is printed as an escape that the reader does not know. -/
theorem exists_escape (h : g.survives = false) :
    ∃ e ds, Text.quoteGlyph g = Text.ofChars ('\\' :: e :: ds) ∧ e ∈ escapeLetters ∧
      PlainDigits ds := by
  have hnone : PlainDigits [] := by simp [PlainDigits]
  cases g with
  | stray b => exact ⟨'x', _, rfl, by decide, plainDigits_hexDigits 2 b.toNat⟩
  | char c =>
    simp only [Glyph.survives, Bool.or_eq_false_iff, beq_eq_false_iff_ne] at h
    obtain ⟨⟨hprintable, hbreak⟩, htab⟩ := h
    have hquote : c ≠ '"' := by
      rintro rfl
      exact absurd hprintable (by decide)
    have hslash : c ≠ '\\' := by
      rintro rfl
      exact absurd hprintable (by decide)
    have hten : c.toNat ≠ 10 := fun hn => hbreak (Char.toNat_inj.mp hn)
    have hnine : c.toNat ≠ 9 := fun hn => htab (Char.toNat_inj.mp hn)
    simp only [Text.quoteGlyph, Text.quoteChar, hquote, hslash, hprintable, hten, hnine, if_false,
      Bool.false_eq_true]
    split_ifs
    · exact ⟨'a', [], rfl, by decide, hnone⟩
    · exact ⟨'b', [], rfl, by decide, hnone⟩
    · exact ⟨'f', [], rfl, by decide, hnone⟩
    · exact ⟨'r', [], rfl, by decide, hnone⟩
    · exact ⟨'v', [], rfl, by decide, hnone⟩
    · exact ⟨'x', _, rfl, by decide, plainDigits_hexDigits 2 _⟩
    · exact ⟨'u', _, rfl, by decide, plainDigits_hexDigits 4 _⟩
    · exact ⟨'U', _, rfl, by decide, plainDigits_hexDigits 8 _⟩

/-- A character that survives is printed as it is, or as an escape that the reader knows. -/
theorem quoteChar_of_survives {c : Char} (h : (Glyph.char c).survives = true) :
    (c ≠ '"' ∧ c ≠ '\\' ∧ Text.quoteChar c = Text.ofChars [c]) ∨
      ∃ e, Text.quoteChar c = Text.ofChars ['\\', e] ∧ escapedChar (.char e) = c := by
  by_cases hquote : c = '"'
  · subst hquote
    exact Or.inr ⟨'"', rfl, rfl⟩
  by_cases hslash : c = '\\'
  · subst hslash
    exact Or.inr ⟨'\\', rfl, rfl⟩
  by_cases hprintable : Text.isPrintable c = true
  · refine Or.inl ⟨hquote, hslash, ?_⟩
    simp [Text.quoteChar, hquote, hslash, hprintable, Text.ofChars]
  · simp only [Glyph.survives, hprintable, Bool.false_or, Bool.or_eq_true, beq_iff_eq] at h
    rcases h with rfl | rfl
    · exact Or.inr ⟨'n', rfl, rfl⟩
    · exact Or.inr ⟨'t', rfl, rfl⟩

/-! ### Printed strings are literals -/

/-- Only the letters of a line break and of a tab stand for another character. -/
theorem escapedChar_eq_self {c : Char} (hbreak : c ≠ 'n') (htab : c ≠ 't') :
    escapedChar (.char c) = c := by
  show escapedChar (.char c) = Glyph.repaired (.char c)
  unfold escapedChar
  split
  · exact absurd ‹_› hbreak
  · exact absurd ‹_› htab
  · rfl

theorem stringBody_plainDigits : ∀ {ds : List Char}, PlainDigits ds → StringBody (ds.map .char) ds
  | [], _ => .nil
  | d :: ds, h => by
    obtain ⟨hd, hds⟩ := List.forall_mem_cons.mp h
    exact (stringBody_plainDigits hds).plain (by simp [hd.1]) (by simp [hd.2])

/-- What is printed for a glyph stands between quotes for what is read for it. -/
theorem exists_stringBody (g : Glyph) :
    ∃ cs ds, Text.quoteGlyph g = Text.ofChars cs ∧ g.reread = Text.ofChars ds ∧
      StringBody (cs.map .char) ds := by
  cases hg : g.survives with
  | false =>
    obtain ⟨e, ds, hquoted, he, hds⟩ := exists_escape hg
    have hsame : escapedChar (.char e) = e :=
      escapedChar_eq_self (ne_of_mem_of_not_mem he (by decide)) (ne_of_mem_of_not_mem he (by decide))
    have hbody := (stringBody_plainDigits hds).escaped (g := .char e)
    rw [hsame] at hbody
    refine ⟨'\\' :: e :: ds, e :: ds, hquoted, ?_, hbody⟩
    simp only [Glyph.reread, hg, hquoted, if_false, Bool.false_eq_true]
    rfl
  | true =>
    cases g with
    | stray b => cases hg
    | char c =>
      have hreread : (Glyph.char c).reread = Text.ofChars [c] := by
        simp [Glyph.reread, hg, Glyph.encode, Text.ofChars]
      rcases quoteChar_of_survives hg with ⟨hquote, hslash, hquoted⟩ | ⟨e, hquoted, he⟩
      · exact ⟨[c], [c], hquoted, hreread, StringBody.nil.plain (by simp [hquote]) (by simp [hslash])⟩
      · refine ⟨['\\', e], [c], hquoted, hreread, ?_⟩
        rw [← he]
        exact StringBody.nil.escaped

/-- The same for any glyphs. -/
theorem exists_stringBody_all : ∀ gs : List Glyph,
    ∃ cs ds, gs.flatMap Text.quoteGlyph = Text.ofChars cs ∧
      gs.flatMap Glyph.reread = Text.ofChars ds ∧ StringBody (cs.map .char) ds
  | [] => ⟨[], [], rfl, rfl, .nil⟩
  | g :: gs => by
    obtain ⟨cs, ds, hquoted, hreread, hbody⟩ := exists_stringBody g
    obtain ⟨cs', ds', hquoted', hreread', hbody'⟩ := exists_stringBody_all gs
    refine ⟨cs ++ cs', ds ++ ds', ?_, ?_, ?_⟩
    · rw [List.flatMap_cons, hquoted, hquoted', Text.ofChars_append]
    · rw [List.flatMap_cons, hreread, hreread', Text.ofChars_append]
    · rw [List.map_append]
      exact hbody.append hbody'

/-- A printed string reads as one literal. -/
theorem tokens_quote (r : Reader) (t : Text) :
    r.tokens t.quote = [⟨.literal, r.position ⟨1, 1⟩, t.quote, .string t.reread⟩] := by
  obtain ⟨cs, ds, hquoted, hreread, hbody⟩ := exists_stringBody_all t.glyphs
  rw [Text.reread, hreread, Text.quote, hquoted]
  exact tokens_quoted hbody

end Reader

/-! ### What survives -/

namespace Text

open Reader (exists_escape escapeLetters)
open Glyph (Legible)

/-- In the place of a glyph that does not survive there is a letter. -/
theorem exists_letter {g : Glyph} (h : g.survives = false) :
    ∃ b rest, g.reread = b :: rest ∧ isLetter b = true := by
  obtain ⟨e, ds, hquoted, he, -⟩ := exists_escape h
  have hletter : ∀ e ∈ escapeLetters, ∃ b, String.utf8EncodeChar e = [b] ∧ isLetter b = true := by
    intro e he
    simp only [escapeLetters, List.mem_cons, List.not_mem_nil, or_false] at he
    rcases he with rfl | rfl | rfl | rfl | rfl | rfl | rfl | rfl <;> exact ⟨_, rfl, rfl⟩
  obtain ⟨b, hb, hisLetter⟩ := hletter e he
  refine ⟨b, ofChars ds, ?_, hisLetter⟩
  have htail : g.reread = String.utf8EncodeChar e ++ ofChars ds := by
    simp only [Glyph.reread, h, hquoted, if_false, Bool.false_eq_true]
    rfl
  rw [htail, hb, List.singleton_append]

/-- A letter is printable, so it survives. -/
theorem survives_of_mem_letter {g : Glyph} {gs : List Glyph} (hl : Legible (g :: gs)) {b : UInt8}
    (hb : isLetter b = true) (h : b ∈ g.encode) : g.survives = true := by
  have hall : ∀ n : Fin 256, isLetter (UInt8.ofNat n) = true → isPrintable (Char.ofNat n) = true := by
    decide +kernel
  have hprintable := hall ⟨b.toNat, b.toNat_lt⟩
  rw [UInt8.ofNat_toNat] at hprintable
  rw [(hl.mem_encode_iff (lt_of_isLetter hb)).mp h]
  simp [Glyph.survives, hprintable hb]

theorem reread_eq_bytes_iff : ∀ {gs : List Glyph}, Legible gs →
    (gs.flatMap Glyph.reread = Glyph.bytes gs ↔ ∀ g ∈ gs, g.survives = true)
  | [], _ => by simp
  | g :: gs, hl => by
    have ih := reread_eq_bytes_iff (Glyph.legible_cons_iff.mp hl).1
    rw [List.flatMap_cons, Glyph.bytes_cons, List.forall_mem_cons]
    cases hg : g.survives with
    | true =>
      have hsame : g.reread = g.encode := if_pos hg
      rw [hsame, List.append_cancel_left_eq, ih]
      simp
    | false =>
      -- the letter that was read is not in the glyph
      obtain ⟨b, rest, hreread, hb⟩ := exists_letter hg
      obtain ⟨a, rest', hencode⟩ := List.exists_cons_of_ne_nil g.encode_ne_nil
      rw [hreread, hencode, List.cons_append, List.cons_append, List.cons.injEq]
      constructor
      · rintro ⟨rfl, -⟩
        have hsurvives := survives_of_mem_letter hl hb (by rw [hencode]; exact List.mem_cons_self)
        rw [hg] at hsurvives
        cases hsurvives
      · rintro ⟨hfalse, -⟩
        cases hfalse

/-- A printed string is read back as itself exactly when all of it survives. -/
theorem reread_eq_iff (t : Text) : t.reread = t ↔ ∀ g ∈ t.glyphs, g.survives = true := by
  have hiff := reread_eq_bytes_iff (legible_glyphs t)
  rwa [bytes_glyphs] at hiff

end Text

namespace Reader

/-- **A printed string is one literal**, of the string with the backslashes dropped from the escapes
that the reader does not know. It is the string itself exactly when each of its glyphs is printable,
a line break or a tab. -/
theorem printed_string_reread (r : Reader) (L : Legend) (t : Text) :
    (Value.string t).text L = .ok t.quote ∧
      r.tokens t.quote = [⟨.literal, ⟨r.module, 1, 1⟩, t.quote, .string t.reread⟩] ∧
      (t.reread = t ↔ ∀ g ∈ t.glyphs, g.survives = true) := by
  refine ⟨?_, tokens_quote r t, Text.reread_eq_iff t⟩
  rw [Value.text]
  rfl

/-- A carriage return comes back as a letter. -/
example : Text.quote "a\r\n" = "\"a\\r\\n\"" ∧ Text.reread "a\r\n" = "ar\n" := by decide +kernel

end Reader

end LittleLisp
