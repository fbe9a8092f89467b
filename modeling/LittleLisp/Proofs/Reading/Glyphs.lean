/-
# Glyphs of a text

A text has one reading as glyphs: its first glyph is the character whose encoding the text
starts with, and its first byte if there is none. So reading can be cut at every boundary
between glyphs (a stretch of glyphs that was read out of some text is what its own bytes
read as) and at every byte below 0x80, which is never part of a longer encoding.

Key definitions: `Glyph.Legible`.
Key theorems: `Text.glyphs_char`, `Text.glyphs_append_ascii`, `Text.legible_glyphs`,
`Glyph.Legible.of_append`.
-/
import Mathlib.Data.List.Infix
import LittleLisp.Text

namespace LittleLisp

namespace Text

/-! ### Encodings -/

/-- No encoding of a character starts with that of another. -/
theorem encode_append_inj {c d : Char} {s t : Text}
    (h : String.utf8EncodeChar c ++ s = String.utf8EncodeChar d ++ t) : c = d ∧ s = t := by
  have hbytes : (String.utf8EncodeChar c).toByteArray ++ s.toByteArray =
      (String.utf8EncodeChar d).toByteArray ++ t.toByteArray := by
    simpa using congrArg List.toByteArray h
  have hdecode := congrArg (fun b => ByteArray.utf8DecodeChar? b 0) hbytes
  simp only [ByteArray.utf8DecodeChar?_utf8EncodeChar_append] at hdecode
  obtain rfl : c = d := Option.some.inj hdecode
  exact ⟨rfl, List.append_cancel_left h⟩

theorem toNat_lt_of_ascii {a : UInt8} (ha : a < 0x80) : a.toNat < 128 := by
  simpa using UInt8.lt_iff_toNat_lt.mp ha

theorem ne_ofNat_of_ascii {a : UInt8} (ha : a < 0x80) {n : Nat} (hn : 128 ≤ n) (hn' : n < 256) :
    a ≠ UInt8.ofNat n := by
  intro h
  have ha := toNat_lt_of_ascii ha
  rw [h, UInt8.toNat_ofNat', Nat.mod_eq_of_lt hn'] at ha
  omega

/-- A byte below 0x80 in the encoding of a character is all of it. -/
theorem encode_eq_of_mem_ascii {c : Char} {a : UInt8} (ha : a < 0x80)
    (h : a ∈ String.utf8EncodeChar c) : String.utf8EncodeChar c = [a] := by
  unfold String.utf8EncodeChar at h ⊢
  dsimp only at h ⊢
  -- every byte of a longer encoding carries a bit above 0x7F
  split_ifs at h ⊢ with h₁ h₂ h₃ <;> simp only [List.mem_cons, List.not_mem_nil, or_false] at h
  · rw [h]
  · rcases h with h | h
    all_goals exact absurd h (ne_ofNat_of_ascii ha (by omega) (by omega))
  · rcases h with h | h | h
    all_goals exact absurd h (ne_ofNat_of_ascii ha (by omega) (by omega))
  · rcases h with h | h | h | h
    all_goals exact absurd h (ne_ofNat_of_ascii ha (by omega) (by omega))

theorem ofNat_toNat_of_lt {n : Nat} (h : n < 256) : (UInt8.ofNat n).toNat = n := by
  rw [UInt8.toNat_ofNat', Nat.mod_eq_of_lt h]

theorem pairChar_of_encode {c : Char} {a b : UInt8} (h : String.utf8EncodeChar c = [a, b]) :
    pairChar a b = c := by
  unfold String.utf8EncodeChar at h
  dsimp only at h
  split_ifs at h with h₁ h₂ h₃
  all_goals simp only [List.cons.injEq, List.cons_ne_nil, and_false, and_true, reduceCtorEq] at h
  obtain ⟨rfl, rfl⟩ := h
  rw [Char.toNat_val] at *
  rw [pairChar, ofNat_toNat_of_lt (by omega), ofNat_toNat_of_lt (by omega)]
  have hn : (c.toNat / 64 % 32 + 192) % 32 * 64 + (c.toNat % 64 + 128) % 64 = c.toNat := by omega
  rw [hn, Char.ofNat_toNat]

theorem tripleChar_of_encode {c : Char} {a b d : UInt8}
    (h : String.utf8EncodeChar c = [a, b, d]) : tripleChar a b d = c := by
  unfold String.utf8EncodeChar at h
  dsimp only at h
  split_ifs at h with h₁ h₂ h₃
  all_goals simp only [List.cons.injEq, List.cons_ne_nil, and_false, and_true, reduceCtorEq] at h
  obtain ⟨rfl, rfl, rfl⟩ := h
  rw [Char.toNat_val] at *
  rw [tripleChar, ofNat_toNat_of_lt (by omega), ofNat_toNat_of_lt (by omega),
    ofNat_toNat_of_lt (by omega)]
  have hn : (c.toNat / 4096 % 16 + 224) % 16 * 4096 + (c.toNat / 64 % 64 + 128) % 64 * 64 +
      (c.toNat % 64 + 128) % 64 = c.toNat := by omega
  rw [hn, Char.ofNat_toNat]

theorem quadChar_of_encode {c : Char} {a b d e : UInt8}
    (h : String.utf8EncodeChar c = [a, b, d, e]) : quadChar a b d e = c := by
  unfold String.utf8EncodeChar at h
  dsimp only at h
  split_ifs at h with h₁ h₂ h₃
  all_goals simp only [List.cons.injEq, and_false, and_true, reduceCtorEq] at h
  obtain ⟨rfl, rfl, rfl, rfl⟩ := h
  have hmax : c.toNat < 1114112 := by
    rcases c.valid with hc | hc
    · exact Nat.lt_trans hc (by decide)
    · exact hc.2
  rw [Char.toNat_val] at *
  rw [quadChar, ofNat_toNat_of_lt (by omega), ofNat_toNat_of_lt (by omega),
    ofNat_toNat_of_lt (by omega), ofNat_toNat_of_lt (by omega)]
  have hn : (c.toNat / 262144 % 8 + 240) % 8 * 262144 + (c.toNat / 4096 % 64 + 128) % 64 * 4096 +
      (c.toNat / 64 % 64 + 128) % 64 * 64 + (c.toNat % 64 + 128) % 64 = c.toNat := by omega
  rw [hn, Char.ofNat_toNat]

/-- An encoding is a byte below 0x80, or two to four bytes. -/
theorem encode_cases (c : Char) :
    (∃ a, a < 0x80 ∧ String.utf8EncodeChar c = [a]) ∨ (∃ a b, String.utf8EncodeChar c = [a, b]) ∨
      (∃ a b d, String.utf8EncodeChar c = [a, b, d]) ∨
        ∃ a b d e, String.utf8EncodeChar c = [a, b, d, e] := by
  unfold String.utf8EncodeChar
  dsimp only
  split_ifs with h₁ h₂ h₃
  · refine Or.inl ⟨_, ?_, rfl⟩
    rw [UInt8.lt_iff_toNat_lt, ofNat_toNat_of_lt (by omega)]
    exact Nat.lt_succ_of_le h₁
  · exact Or.inr (Or.inl ⟨_, _, rfl⟩)
  · exact Or.inr (Or.inr (Or.inl ⟨_, _, _, rfl⟩))
  · exact Or.inr (Or.inr (Or.inr ⟨_, _, _, _, rfl⟩))

/-! ### The first glyph -/

/-- A text that starts with no encoded character. -/
def StartsStray (t : Text) : Prop := ∀ c, ¬ String.utf8EncodeChar c <+: t

theorem startsStray_cons {a : UInt8} {rest : Text} (h₁ : ¬ a < 0x80)
    (h₂ : ∀ b u, rest = b :: u → String.utf8EncodeChar (pairChar a b) ≠ [a, b])
    (h₃ : ∀ b d u, rest = b :: d :: u → String.utf8EncodeChar (tripleChar a b d) ≠ [a, b, d])
    (h₄ : ∀ b d e u, rest = b :: d :: e :: u →
      String.utf8EncodeChar (quadChar a b d e) ≠ [a, b, d, e]) :
    StartsStray (a :: rest) := by
  rintro c ⟨u, hu⟩
  rcases encode_cases c with ⟨a', ha, hc⟩ | ⟨a', b, hc⟩ | ⟨a', b, d, hc⟩ | ⟨a', b, d, e, hc⟩ <;>
    rw [hc] at hu <;>
    simp only [List.cons_append, List.nil_append, List.cons.injEq] at hu <;>
    obtain ⟨rfl, hrest⟩ := hu
  · exact h₁ ha
  · exact h₂ b u hrest.symm (by rw [pairChar_of_encode hc, hc])
  · exact h₃ b d u hrest.symm (by rw [tripleChar_of_encode hc, hc])
  · exact h₄ b d e u hrest.symm (by rw [quadChar_of_encode hc, hc])

/-- The first glyph is the character that the text starts with, or else the first byte. -/
theorem glyphs_cases : ∀ {t : Text}, t ≠ [] →
    (∃ c rest, t = String.utf8EncodeChar c ++ rest ∧ glyphs t = .char c :: glyphs rest) ∨
      ∃ a rest, t = a :: rest ∧ StartsStray t ∧ glyphs t = .stray a :: glyphs rest := by
  intro t ht
  fun_cases glyphs t with
  | case1 => exact absurd rfl ht
  | case2 a rest ha =>
    refine Or.inl ⟨Char.ofNat a.toNat, rest, ?_, rfl⟩
    rw [encode_ascii ha, List.singleton_append]
  | case3 a ha =>
    refine Or.inr ⟨a, [], rfl, startsStray_cons ha ?_ ?_ ?_, rfl⟩ <;> simp
  | case4 a ha b rest h => exact Or.inl ⟨_, rest, by rw [h]; rfl, rfl⟩
  | case5 a ha b h =>
    refine Or.inr ⟨a, [b], rfl, startsStray_cons ha ?_ ?_ ?_, rfl⟩
    · simpa using h
    all_goals simp
  | case6 a ha b h d rest h' => exact Or.inl ⟨_, rest, by rw [h']; rfl, rfl⟩
  | case7 a ha b h d h' =>
    refine Or.inr ⟨a, [b, d], rfl, startsStray_cons ha ?_ ?_ ?_, rfl⟩
    · simpa using h
    · rintro _ _ _ ⟨⟩
      exact h'
    · simp
  | case8 a ha b h d h' e rest h'' => exact Or.inl ⟨_, rest, by rw [h'']; rfl, rfl⟩
  | case9 a ha b h d h' e rest h'' =>
    refine Or.inr ⟨a, _, rfl, startsStray_cons ha ?_ ?_ ?_, rfl⟩
    · simpa using h
    · rintro _ _ _ ⟨⟩
      exact h'
    · rintro _ _ _ _ ⟨⟩
      exact h''

/-- The encoding of a character reads as the character, whatever follows. -/
theorem glyphs_char (c : Char) (t : Text) :
    glyphs (String.utf8EncodeChar c ++ t) = .char c :: glyphs t := by
  have hne : String.utf8EncodeChar c ++ t ≠ [] := by simp
  rcases glyphs_cases hne with ⟨d, rest, hd, hg⟩ | ⟨a, rest, -, hstray, -⟩
  · obtain ⟨rfl, rfl⟩ := encode_append_inj hd
    exact hg
  · exact absurd (List.prefix_append _ _) (hstray c)

/-- A first byte that starts no encoded character reads as itself. -/
theorem glyphs_stray {a : UInt8} {t : Text} (h : StartsStray (a :: t)) :
    glyphs (a :: t) = .stray a :: glyphs t := by
  rcases glyphs_cases (List.cons_ne_nil a t) with ⟨c, rest, hc, -⟩ | ⟨b, rest, hb, -, hg⟩
  · exact absurd ⟨rest, hc.symm⟩ (h c)
  · obtain ⟨rfl, rfl⟩ := List.cons.inj hb
    exact hg

theorem glyphs_ascii {a : UInt8} (ha : a < 0x80) (t : Text) :
    glyphs (a :: t) = .char (Char.ofNat a.toNat) :: glyphs t := by
  have h := glyphs_char (Char.ofNat a.toNat) t
  rwa [encode_ascii ha] at h

theorem ofChars_append (cs ds : List Char) : ofChars (cs ++ ds) = ofChars cs ++ ofChars ds := by
  simp [ofChars]

/-- Characters read as themselves, whatever follows. -/
theorem glyphs_ofChars_append (t : Text) : ∀ cs : List Char,
    glyphs (ofChars cs ++ t) = cs.map .char ++ glyphs t
  | [] => rfl
  | c :: cs => by
    have hcons : ofChars (c :: cs) ++ t = String.utf8EncodeChar c ++ (ofChars cs ++ t) := by
      simp [ofChars]
    rw [hcons, glyphs_char, glyphs_ofChars_append t cs, List.map_cons, List.cons_append]

theorem StartsStray.of_append {t u : Text} (h : StartsStray (t ++ u)) : StartsStray t :=
  fun c hc => h c (hc.trans (List.prefix_append t u))

theorem StartsStray.not_ascii {a : UInt8} {t : Text} (h : StartsStray (a :: t)) : ¬ a < 0x80 :=
  fun ha => h (Char.ofNat a.toNat) ⟨t, by rw [encode_ascii ha, List.singleton_append]⟩

/-- A first byte that is no character stays so when a byte below 0x80 follows. -/
theorem StartsStray.append_ascii {t : Text} (h : StartsStray t) (ht : t ≠ []) {a : UInt8}
    (ha : a < 0x80) (u : Text) : StartsStray (t ++ a :: u) := by
  intro c hc
  rcases Nat.lt_or_ge t.length (String.utf8EncodeChar c).length with hlen | hlen
  · -- the encoding would reach over the byte, which is then all of it
    have hover : t ++ [a] <+: String.utf8EncodeChar c := by
      refine List.prefix_of_prefix_length_le ⟨u, by simp⟩ hc ?_
      rw [List.length_append]
      exact hlen
    have hmem : a ∈ String.utf8EncodeChar c := hover.subset (by simp)
    rw [encode_eq_of_mem_ascii ha hmem] at hlen
    exact ht (List.length_eq_zero_iff.mp (by simpa using hlen))
  · exact h c (List.prefix_of_prefix_length_le hc (List.prefix_append _ _) hlen)

end Text

namespace Glyph

theorem encode_ne_nil (g : Glyph) : g.encode ≠ [] := by
  cases g <;> simp [encode]

/-! ### Stretches of glyphs -/

/-- Glyphs that are what their own bytes read as. -/
def Legible (gs : List Glyph) : Prop := Text.glyphs (bytes gs) = gs

theorem legible_nil : Legible [] := rfl

theorem legible_cons_iff {g : Glyph} {gs : List Glyph} :
    Legible (g :: gs) ↔
      Legible gs ∧ ∀ a, g = .stray a → Text.StartsStray (a :: bytes gs) := by
  unfold Legible
  rw [bytes_cons]
  cases g with
  | char c => simp [encode, Text.glyphs_char]
  | stray a =>
    simp only [encode, List.singleton_append, stray.injEq, forall_eq']
    constructor
    · intro h
      rcases Text.glyphs_cases (List.cons_ne_nil a (bytes gs)) with
        ⟨c, rest, -, hg⟩ | ⟨b, rest, hb, hstray, hg⟩
      · rw [hg] at h
        simp at h
      · obtain ⟨rfl, rfl⟩ := List.cons.inj hb
        rw [hg] at h
        exact ⟨(List.cons.inj h).2, hstray⟩
    · rintro ⟨h, hstray⟩
      rw [Text.glyphs_stray hstray, h]

/-- Cutting legible glyphs gives legible glyphs. -/
theorem Legible.of_append {hs : List Glyph} : ∀ {gs : List Glyph},
    Legible (gs ++ hs) → Legible gs ∧ Legible hs
  | [], h => ⟨legible_nil, h⟩
  | g :: gs, h => by
    rw [List.cons_append, legible_cons_iff, bytes_append] at h
    obtain ⟨hgs, hhs⟩ := of_append h.1
    refine ⟨legible_cons_iff.mpr ⟨hgs, fun a ha => ?_⟩, hhs⟩
    have hstray := h.2 a ha
    rw [← List.cons_append] at hstray
    exact hstray.of_append

theorem Legible.left {gs hs : List Glyph} (h : Legible (gs ++ hs)) : Legible gs := h.of_append.1

theorem Legible.right {gs hs : List Glyph} (h : Legible (gs ++ hs)) : Legible hs := h.of_append.2

/-- Below 0x80 a byte of a legible glyph is the whole glyph. -/
theorem Legible.mem_encode_iff {g : Glyph} {gs : List Glyph} (h : Legible (g :: gs)) {a : UInt8}
    (ha : a < 0x80) : a ∈ g.encode ↔ g = .char (Char.ofNat a.toNat) := by
  constructor
  · intro hmem
    cases g with
    | char c =>
      have hc := Text.encode_eq_of_mem_ascii ha hmem
      have hsame :
          String.utf8EncodeChar c ++ [] = String.utf8EncodeChar (Char.ofNat a.toNat) ++ [] := by
        rw [hc, Text.encode_ascii ha]
      rw [(Text.encode_append_inj hsame).1]
    | stray b =>
      obtain rfl : a = b := by simpa [encode] using hmem
      exact absurd ha ((legible_cons_iff.mp h).2 a rfl).not_ascii
  · rintro rfl
    simp [encode, Text.encode_ascii ha]

end Glyph

namespace Text

open Glyph

/-- The glyphs of any text are legible. -/
theorem legible_glyphs (t : Text) : Legible t.glyphs := by
  rw [Legible, bytes_glyphs]

theorem glyphs_bytes_append_ascii {a : UInt8} (ha : a < 0x80) (u : Text) :
    ∀ {gs : List Glyph}, Legible gs → glyphs (bytes gs ++ a :: u) = gs ++ glyphs (a :: u)
  | [], _ => rfl
  | g :: gs, h => by
    obtain ⟨hgs, hstray⟩ := legible_cons_iff.mp h
    have ih := glyphs_bytes_append_ascii ha u hgs
    rw [bytes_cons, List.append_assoc]
    cases g with
    | char c => rw [encode, glyphs_char, ih, List.cons_append]
    | stray b =>
      have hb : StartsStray (b :: (bytes gs ++ a :: u)) :=
        (hstray b rfl).append_ascii (List.cons_ne_nil _ _) ha u
      rw [encode, List.singleton_append, glyphs_stray hb, ih, List.cons_append]

/-- Reading can be cut before every byte below 0x80. -/
theorem glyphs_append_ascii {a : UInt8} (ha : a < 0x80) (t u : Text) :
    glyphs (t ++ a :: u) = glyphs t ++ .char (Char.ofNat a.toNat) :: glyphs u := by
  have h := glyphs_bytes_append_ascii ha u (legible_glyphs t)
  rwa [bytes_glyphs, glyphs_ascii ha] at h

/-- Bytes below 0x80 are read one by one, whatever comes before them. -/
theorem glyphs_append_of_ascii (t : Text) : ∀ {u : Text}, (∀ b ∈ u, b < 0x80) →
    (t ++ u).glyphs = t.glyphs ++ u.map fun b => .char (Char.ofNat b.toNat)
  | [], _ => by simp
  | b :: u, h => by
    rw [List.forall_mem_cons] at h
    have hu := glyphs_append_of_ascii [] h.2
    rw [List.nil_append] at hu
    rw [glyphs_append_ascii h.1, hu, List.map_cons]
    rfl

end Text

end LittleLisp
