/-
# String literals

Every string can be written down: with a backslash before each backslash and each double quote, its
characters are read as themselves. What a literal stands for is a string of characters even where
the source is not, since the reader repairs what it takes into the value. And a double quote that
is never closed, because an odd number of backslashes stands before each further one, takes the
rest of the source with it as one invalid token.

Key definitions: `Text.escapeChar`, `Text.literal`, `Text.slashes`, `Text.Unclosed`.
Key theorems: `Reader.tokens_quoted`, `Reader.run_unclosed`,
`Reader.strings_expressible_and_clean`.
-/
import LittleLisp.Proofs.Reading.Layout

namespace LittleLisp

namespace Text

/-- A character, with a backslash before it if it is a backslash or a double quote. -/
def escapeChar (c : Char) : List Char := if c = '\\' ∨ c = '"' then ['\\', c] else [c]

/-- The literal that stands for a string. -/
def literal (s : String) : Text := "\"" ++ ofChars (s.toList.flatMap escapeChar) ++ "\""

/-- The number of backslashes at the end of a text. -/
def slashes (t : Text) : Nat := (t.rtakeWhile (· == 92)).length

/-- No double quote in the text closes a string: an odd number of backslashes stands before each. -/
def Unclosed (t : Text) : Prop := ∀ i < t.length, t[i]? = some 34 → slashes (t.take i) % 2 = 1

instance (t : Text) : Decidable t.Unclosed :=
  inferInstanceAs (Decidable (∀ i < t.length, t[i]? = some 34 → slashes (t.take i) % 2 = 1))

end Text

namespace Reader

open Glyph (Legible)

variable {r : Reader}

/-! ### Strings between quotes -/

theorem stringBody_escapeChar : ∀ cs : List Char,
    StringBody ((cs.flatMap Text.escapeChar).map .char) cs
  | [] => .nil
  | c :: cs => by
    have ih := stringBody_escapeChar cs
    rw [List.flatMap_cons, List.map_append, Text.escapeChar]
    split_ifs with hc
    · have hsame : escapedChar (.char c) = c := by
        rcases hc with rfl | rfl <;> rfl
      have hbody := ih.escaped (g := .char c)
      rwa [hsame] at hbody
    · rw [not_or] at hc
      exact ih.plain (by simp [hc.2]) (by simp [hc.1])

/-- A source that is one string has the token of that string. -/
theorem tokens_quoted {cs ds : List Char} (h : StringBody (cs.map .char) ds) :
    r.tokens ("\"" ++ Text.ofChars cs ++ "\"") =
      [⟨.literal, r.position ⟨1, 1⟩, "\"" ++ Text.ofChars cs ++ "\"", .string (Text.ofChars ds)⟩] := by
  have hglyphs : ("\"" ++ Text.ofChars cs ++ "\"" : Text).glyphs = inQuotes (cs.map .char) := by
    have hstart := Text.glyphs_ascii (a := 34) (by decide) (Text.ofChars cs ++ "\"")
    have hbody := Text.glyphs_ofChars_append "\"" cs
    rw [hbody] at hstart
    exact hstart
  have htext : Glyph.bytes (inQuotes (cs.map .char)) = "\"" ++ Text.ofChars cs ++ "\"" := by
    rw [← hglyphs, Text.bytes_glyphs]
  rw [tokens, hglyphs, run_string h rfl, htext]
  rfl

/-- No word stands for a string. -/
theorem value_ofAtom_ne (marker : Text) (p : Position) (word v : Text) :
    (Token.ofAtom marker p word).value ≠ .string v := by
  unfold Token.ofAtom
  dsimp only
  repeat' split
  all_goals simp

/-- What a string literal stands for is made of characters. -/
theorem Spelled.value_chars {gs : List Glyph} {t : Token} (h : Spelled r gs t) {v : Text}
    (hv : t.value = .string v) : ∃ cs, v = Text.ofChars cs := by
  cases h with
  | @string body cs p _ => exact ⟨cs, (Atom.string.inj (Value.atom.inj hv)).symm⟩
  | word p _ => exact absurd hv (value_ofAtom_ne _ _ _ _)
  | _ => cases hv

/-! ### Strings that are not closed -/

/-- The number of backslashes that some glyphs end with. -/
def slashes (gs : List Glyph) : Nat := (gs.rtakeWhile (· == .char '\\')).length

theorem slashes_concat (gs : List Glyph) (g : Glyph) :
    slashes (gs ++ [g]) = if g = .char '\\' then slashes gs + 1 else 0 := by
  unfold slashes
  split_ifs with hg
  · rw [List.rtakeWhile_concat_pos _ _ _ (by simpa using hg), List.length_append]
    rfl
  · rw [List.rtakeWhile_concat_neg _ _ _ (by simpa using hg)]
    rfl

/-- The same number on the bytes. -/
theorem slashes_bytes {gs : List Glyph} (h : Legible gs) :
    (Glyph.bytes gs).slashes = slashes gs := by
  induction gs using List.reverseRecOn with
  | nil => rfl
  | append_singleton gs g ih =>
    have hmem := h.right.mem_encode_iff (a := 92) (by decide)
    rw [slashes_concat, Glyph.bytes_append, Glyph.bytes_cons, Glyph.bytes_nil, List.append_nil]
    split_ifs with hg
    · subst hg
      have hencode : (Glyph.char '\\').encode = [92] := rfl
      rw [hencode, ← ih h.left, Text.slashes, List.rtakeWhile_concat_pos _ _ _ (by decide),
        List.length_append]
      rfl
    · -- the last byte of the glyph is no backslash
      obtain ⟨front, b, hencode⟩ := (List.eq_nil_or_concat' g.encode).resolve_left g.encode_ne_nil
      have hb : b ≠ 92 := by
        rintro rfl
        exact hg (hmem.mp (by rw [hencode]; simp))
      rw [hencode, ← List.append_assoc, Text.slashes,
        List.rtakeWhile_concat_neg _ _ _ (by simpa using hb)]
      rfl

/-- As long as no double quote closes it, a string is taken up whole. -/
theorem run_unclosed {start : Place} {seen : List Glyph} {s : State}
    (hs : s.mode = .string start seen [] false) {gs : List Glyph}
    (h : ∀ before after, gs = before ++ .char '"' :: after → slashes before % 2 = 1) :
    ∃ value, run r s gs =
      { s with
        place := gs.foldl Place.after s.place
        mode := .string start (gs.reverse ++ seen) value (decide (slashes gs % 2 = 1)) } := by
  induction gs using List.reverseRecOn with
  | nil =>
    obtain ⟨place, depth, mode, done⟩ := s
    obtain rfl : mode = .string start seen [] false := hs
    exact ⟨[], rfl⟩
  | append_singleton gs g ih =>
    obtain ⟨value, hrun⟩ := ih fun before after hsplit =>
      h before (after ++ [g]) (by rw [hsplit]; simp)
    have hquote : g = .char '"' → slashes gs % 2 = 1 := by
      rintro rfl
      exact h gs [] rfl
    rw [run_append, hrun, run_cons, run_nil, step, slashes_concat]
    by_cases hodd : slashes gs % 2 = 1
    · -- the glyph is escaped, so what follows it is not
      have heven : ¬ (if g = .char '\\' then slashes gs + 1 else 0) % 2 = 1 := by
        intro hnext
        split_ifs at hnext
        omega
      exact ⟨escapedChar g :: value, by simp [hodd, heven]⟩
    · have hopen : g ≠ .char '"' := fun hg => hodd (hquote hg)
      by_cases hslash : g = .char '\\'
      · have hnext : (slashes gs + 1) % 2 = 1 := by omega
        exact ⟨value, by simp [hodd, hslash, hnext]⟩
      · exact ⟨g.repaired :: value, by simp [hodd, hopen, hslash]⟩

/-- Each double quote among the glyphs of an unclosed text is escaped. -/
theorem odd_slashes_of_unclosed {t : Text} (h : t.Unclosed) {before after : List Glyph}
    (hsplit : t.glyphs = before ++ .char '"' :: after) : slashes before % 2 = 1 := by
  have hlegible : Legible before := by
    have ht := Text.legible_glyphs t
    rw [hsplit] at ht
    exact ht.left
  have hbytes : t = Glyph.bytes before ++ 34 :: Glyph.bytes after := by
    rw [← Text.bytes_glyphs t, hsplit, Glyph.bytes_append]
    rfl
  have hodd := h (Glyph.bytes before).length (by rw [hbytes]; simp) (by rw [hbytes]; simp)
  rwa [hbytes, List.take_left, slashes_bytes hlegible] at hodd

/-- A double quote that is never closed takes the rest of the source, wherever it is met between
tokens or at the end of a word. -/
theorem tokens_unclosed {before t : Text} (hopen : Open (run r initial before.glyphs).mode)
    (h : t.Unclosed) :
    r.tokens (before ++ 34 :: t) =
      r.tokens before ++ [⟨.invalid, .following r.module before, 34 :: t, .absent⟩] := by
  set s := settled r (run r initial before.glyphs) with hs
  have hidle : s.mode = .idle := mode_settled hopen
  have hplace : s.place = past before.glyphs := by
    have hl := Text.legible_glyphs before
    exact (accounts_settled (accounts_run r _ hl) hopen hl).place
  have hquote : step r (run r initial before.glyphs) (.char '"') =
      { s with
        place := s.place.after (.char '"')
        mode := .string s.place [.char '"'] [] false } := by
    rw [step_delimiter (by decide) hopen, ← hs]
    simp [startToken, Glyph.isBlank, Text.isBlank]
  have hmode : (step r (run r initial before.glyphs) (.char '"')).mode =
      .string s.place [.char '"'] [] false := by
    rw [hquote]
  have hodd : ∀ front back, t.glyphs = front ++ .char '"' :: back → slashes front % 2 = 1 :=
    fun _ _ => odd_slashes_of_unclosed h
  obtain ⟨value, hrun⟩ := run_unclosed (r := r) hmode hodd
  have hchar : Glyph.char (Char.ofNat (34 : UInt8).toNat) = .char '"' := rfl
  have htext : Glyph.bytes (t.glyphs.reverse ++ [Glyph.char '"']).reverse = 34 :: t := by
    rw [List.reverse_append, List.reverse_reverse, Glyph.bytes_append, Text.bytes_glyphs]
    rfl
  have hposition : r.position s.place = .following r.module before := by
    rw [hplace, position_past r (Text.legible_glyphs before), Text.bytes_glyphs]
  rw [tokens, Text.glyphs_append_ascii (by decide), run_append, run_cons, hchar, hrun, hquote,
    tokens, finish_open hopen, ← hs]
  simp only [finish, bareToken, htext, hposition, List.reverse_cons]

/-! ### All strings -/

/-- **Every string can be written down, and string values are clean.** With its backslashes and
double quotes escaped, a string is read as itself; the value of a string literal is a string of
characters in any source; and a double quote that is never closed makes the rest of the source one
invalid token, at the start of a source and wherever else a token may start. -/
theorem strings_expressible_and_clean (r : Reader) :
    (∀ s : String, r.tokens (Text.literal s) =
      [⟨.literal, ⟨r.module, 1, 1⟩, Text.literal s, .string s⟩]) ∧
    (∀ source, ∀ t ∈ r.tokens source, ∀ v, t.value = .string v →
      ∃ s : String, v = Text.ofString s) ∧
    ∀ before t : Text, Open (run r initial before.glyphs).mode → t.Unclosed →
      r.tokens (before ++ 34 :: t) =
        r.tokens before ++ [⟨.invalid, .following r.module before, 34 :: t, .absent⟩] := by
  refine ⟨fun s => ?_, fun source t ht v hv => ?_, fun before t => tokens_unclosed⟩
  · exact tokens_quoted (stringBody_escapeChar s.toList)
  · obtain ⟨cs, rfl⟩ := (r.spelled_tokens source t ht).value_chars hv
    exact ⟨String.ofList cs, by rw [Text.ofString, String.toList_ofList]⟩

/-- A string with a backslash, a double quote, a line break and a character of four bytes; a literal
with a byte that is no character; and a string after a word that ends in a backslash. -/
theorem strings_expressible_and_clean_of_bytes :
    let r : Reader := ⟨"m", ":"⟩
    let s : String := "\\\"\n\r🚀"
    let source : Text := 34 :: 0xFF :: "\\n\""
    let token : Token := ⟨.literal, ⟨"m", 1, 1⟩, source, .string "\uFFFD\n"⟩
    let before : Text := "(f\n x"
    let t : Text := "a\\\"b\\\\\\\" \\"
    r.tokens (Text.literal s) = [⟨.literal, ⟨"m", 1, 1⟩, Text.literal s, .string s⟩] ∧
      (token ∈ r.tokens source ∧ ∃ s : String, Text.ofString "\uFFFD\n" = Text.ofString s) ∧
      Open (run r initial before.glyphs).mode ∧ t.Unclosed ∧
      r.tokens (before ++ 34 :: t) =
        r.tokens before ++ [⟨.invalid, ⟨"m", 2, 3⟩, 34 :: t, .absent⟩] := by
  intro r s source token before t
  have htoken : token ∈ r.tokens source := by
    have htokens : r.tokens source = [token] := rfl
    rw [htokens]
    exact List.mem_singleton_self token
  have hopen : Open (run r initial before.glyphs).mode := .word _ _
  have hunclosed : t.Unclosed := by decide +kernel
  have hposition : Position.following r.module before = ⟨"m", 2, 3⟩ := by decide +kernel
  obtain ⟨hliteral, hvalues, hrest⟩ := strings_expressible_and_clean r
  refine ⟨hliteral s, ⟨htoken, hvalues source token htoken _ rfl⟩, hopen, hunclosed, ?_⟩
  rw [← hposition]
  exact hrest before t hopen hunclosed

end Reader

end LittleLisp
