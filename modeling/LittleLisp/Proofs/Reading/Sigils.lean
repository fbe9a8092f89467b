/-
# Sigils and markers

A configuration says what keywords and method names start with. The check of a configuration
turns down the separators that the reader knows one by one, but the reader, and the machine
behind it, ask for more: the start of a word has no white space of any kind in it, its first
glyph is a readable character, and it opens no block comment (`Leads`). A word that starts with
the marker is a keyword even if it starts with the sigil too.

Under a checked configuration these are all the obstacles. Marker and name are read as one
keyword exactly when the marker leads a word, and sigil and name as one method name exactly when
the sigil leads a word and the marker does not get in the way.

Key definitions: `Text.IsName`, `Token.IsConstant`, `Reader.Leads`, `Session.ReadsKeyword`,
`Session.ReadsMethod`.
Key theorems: `Reader.word_append_name_iff`, `Reader.tokens_eq_singleton_iff`,
`Session.checked_starts_readable_iff`.
-/
import LittleLisp.Proofs.Reading.Layout
import LittleLisp.Session

namespace LittleLisp

/-! ### Names -/

namespace Text

/-- Whether a byte is a letter from `a` to `z` or from `A` to `Z`. -/
def isLetter (b : UInt8) : Bool := (65 ≤ b && b ≤ 90) || (97 ≤ b && b ≤ 122)

/-- A name of one or more letters. -/
def IsName (t : Text) : Prop := t ≠ [] ∧ ∀ b ∈ t, isLetter b = true

instance (t : Text) : Decidable t.IsName :=
  decidable_of_iff (t ≠ [] ∧ t.all isLetter = true) (by rw [IsName, List.all_eq_true])

theorem lt_of_isLetter {b : UInt8} (h : isLetter b = true) : b < 0x80 := by
  simp only [isLetter, Bool.or_eq_true, Bool.and_eq_true, decide_eq_true_eq,
    UInt8.le_iff_toNat_le] at h
  rw [UInt8.lt_iff_toNat_lt]
  rcases h with ⟨-, h⟩ | ⟨-, h⟩ <;> exact Nat.lt_of_le_of_lt h (by decide)

theorem isDelimiter_of_isLetter {b : UInt8} (h : isLetter b = true) :
    Reader.isDelimiter (.char (Char.ofNat b.toNat)) = false := by
  have hall : ∀ n : Fin 256, isLetter (UInt8.ofNat n) = true →
      Reader.isDelimiter (.char (Char.ofNat n)) = false := by decide +kernel
  have hn := hall ⟨b.toNat, b.toNat_lt⟩
  rw [UInt8.ofNat_toNat] at hn
  exact hn h

/-- Letters are read one by one, whatever comes before them. -/
theorem glyphs_append_letters (t : Text) {u : Text} (h : ∀ b ∈ u, isLetter b = true) :
    (t ++ u).glyphs = t.glyphs ++ u.map fun b => .char (Char.ofNat b.toNat) :=
  glyphs_append_of_ascii t fun b hb => lt_of_isLetter (h b hb)

end Text

/-! ### Words that are no constants -/

namespace Token

/-- A word that stands for a value of its own: `true`, `false`, `nil` or a number. -/
def IsConstant (word : Text) : Prop :=
  word = "true" ∨ word = "false" ∨ word = "nil" ∨
    (Number.looksNumeric word = true ∧ (Number.ofLiteral? word).isSome = true)

instance (word : Text) : Decidable (IsConstant word) := inferInstanceAs (Decidable (_ ∨ _))

/-- Any other word is a keyword or an identifier, by the marker alone. -/
theorem ofAtom_of_not_constant {word : Text} (h : ¬ IsConstant word) (marker : Text)
    (p : Position) :
    ofAtom marker p word =
      if marker.extendedBy word then ⟨.keyword, p, word, .keyword word⟩
      else ⟨.identifier, p, word, .undefined word⟩ := by
  simp only [IsConstant, not_or, not_and, Bool.not_eq_true, Option.isSome_eq_false_iff,
    Option.isNone_iff_eq_none] at h
  obtain ⟨htrue, hfalse, hnil, hnumber⟩ := h
  have hnone : (if Number.looksNumeric word then Number.ofLiteral? word else none) = none := by
    split
    · exact hnumber ‹_›
    · rfl
  simp only [ofAtom, htrue, hfalse, hnil, hnone, if_false]

end Token

/-! ### What a word may start with -/

namespace Reader

/-- The text may start a word: no white space is in it, its first glyph is a readable character, and
it opens no block comment. -/
structure Leads (start : Text) : Prop where
  unbroken : ∀ g ∈ start.glyphs, g.isBlank = false
  readable : ∀ g ∈ start.glyphs.head?, isUnreadable g = false
  noComment : ¬ [.char '#', .char '|'] <+: start.glyphs

theorem leads_iff {start : Text} :
    Leads start ↔ (∀ g ∈ start.glyphs, g.isBlank = false) ∧
      (∀ g ∈ start.glyphs.head?, isUnreadable g = false) ∧
        ¬ [.char '#', .char '|'] <+: start.glyphs :=
  ⟨fun h => ⟨h.unbroken, h.readable, h.noComment⟩, fun h => ⟨h.1, h.2.1, h.2.2⟩⟩

instance (start : Text) : Decidable (Leads start) := decidable_of_iff _ leads_iff.symm

theorem glyphs_ne_nil {t : Text} (h : t ≠ []) : t.glyphs ≠ [] := by
  intro hnil
  have hbytes := Text.bytes_glyphs t
  rw [hnil] at hbytes
  exact h hbytes.symm

/-- Where there are none of the separators, only white space ends a word. -/
theorem isDelimiter_eq_isBlank {start : Text}
    (h : start.any (Config.separators.contains ·) = false) {g : Glyph} (hg : g ∈ start.glyphs) :
    isDelimiter g = g.isBlank := by
  have hsep : ∀ b ∈ g.encode, Config.separators.contains b = false := by
    intro b hb
    have hmem : b ∈ Glyph.bytes start.glyphs := List.mem_flatMap.mpr ⟨g, hg, hb⟩
    rw [Text.bytes_glyphs] at hmem
    simpa using List.any_eq_false.mp h b hmem
  cases hblank : g.isBlank with
  | true => exact isDelimiter_iff.mpr (Or.inl hblank)
  | false =>
    rw [Bool.eq_false_iff, ne_eq, isDelimiter_iff, hblank]
    rintro (h' | h' | h' | h' | h' | h' | h' | h')
    · exact absurd h' (by decide)
    all_goals
      rw [h'] at hsep
      exact absurd hsep (by decide)

/-- A start without separators and a name spell a word exactly when the start leads one. -/
theorem word_append_name_iff {start name : Text} (hne : start ≠ [])
    (hsep : start.any (Config.separators.contains ·) = false) (hn : name.IsName) :
    Word (start ++ name).glyphs ↔ Leads start := by
  rw [Text.glyphs_append_letters start hn.2]
  obtain ⟨g, rest, hstart⟩ := List.exists_cons_of_ne_nil (glyphs_ne_nil hne)
  constructor
  · intro h
    refine ⟨fun g' hg' => ?_, fun g' hg' => ?_, fun hp => ?_⟩
    · rw [← isDelimiter_eq_isBlank hsep hg']
      exact h.unbroken g' (List.mem_append_left _ hg')
    · obtain ⟨g₁, rest₁, hfirst, hreadable⟩ := h.starts
      rw [hstart] at hg' hfirst
      obtain rfl : g = g' := by simpa using hg'
      rwa [(List.cons.inj hfirst).1]
    · exact h.noComment (hp.trans (List.prefix_append _ _))
  · intro h
    refine ⟨⟨g, rest ++ _, by rw [hstart]; rfl, h.readable g (by rw [hstart]; rfl)⟩, ?_, ?_⟩
    · intro g' hg'
      rcases List.mem_append.mp hg' with hg' | hg'
      · rw [isDelimiter_eq_isBlank hsep hg']
        exact h.unbroken g' hg'
      · obtain ⟨b, hb, rfl⟩ := List.mem_map.mp hg'
        exact Text.isDelimiter_of_isLetter (hn.2 b hb)
    · intro hp
      refine h.noComment ?_
      rw [hstart] at hp ⊢
      -- the bar of a comment would have to be a letter of the name
      cases rest with
      | nil =>
        obtain ⟨b, u, rfl⟩ := List.exists_cons_of_ne_nil hn.1
        simp only [List.singleton_append, List.map_cons, List.cons_prefix_cons] at hp
        obtain ⟨-, hbar, -⟩ := hp
        have hb := hn.2 b (List.mem_cons_self ..)
        have hchar := Text.encode_ascii (Text.lt_of_isLetter hb)
        rw [← Glyph.char.inj hbar] at hchar
        rw [← List.singleton_inj.mp (show [(124 : UInt8)] = [b] from hchar)] at hb
        exact absurd hb (by decide)
      | cons g₁ rest =>
        simp only [List.cons_append, List.cons_prefix_cons] at hp ⊢
        exact ⟨hp.1, hp.2.1, List.nil_prefix⟩

/-! ### Words alone in a source -/

variable {r : Reader}

/-- A source that is one word has the token of that word. -/
theorem tokens_of_word {word : Text} (h : Word word.glyphs) :
    r.tokens word = [Token.ofAtom r.effectiveMarker (r.position ⟨1, 1⟩) word] := by
  obtain ⟨hopen, hsettled⟩ := run_word (r := r) h (s := initial) rfl
  rw [tokens, finish_open hopen, hsettled, wordToken, List.reverse_reverse, Text.bytes_glyphs]
  rfl

/-- A keyword or an identifier that is all of a source is spelled as a word. -/
theorem word_of_tokens {word : Text} {t : Token} (h : r.tokens word = [t]) (ht : t.text = word)
    (htype : t.type = .keyword ∨ t.type = .identifier) : Word word.glyphs := by
  have hspelled := r.spelled_tokens word t (by rw [h]; simp)
  rw [ht] at hspelled
  generalize word.glyphs = gs at hspelled ⊢
  cases hspelled with
  | word p hword => exact hword
  | _ => simp at htype

/-- A source that is no constant reads as one keyword or identifier with its own text exactly when
it is a word, the marker deciding which of the two. -/
theorem tokens_eq_singleton_iff {word : Text} (h : ¬ Token.IsConstant word) {type : TokenType}
    (htype : type = .keyword ∨ type = .identifier) :
    (∃ t, r.tokens word = [t] ∧ t.type = type ∧ t.text = word) ↔
      Word word.glyphs ∧ (type = .keyword ↔ r.effectiveMarker.extendedBy word = true) := by
  constructor
  · rintro ⟨t, htokens, rfl, htext⟩
    have hword := word_of_tokens htokens htext htype
    rw [tokens_of_word hword, Token.ofAtom_of_not_constant h] at htokens
    refine ⟨hword, ?_⟩
    obtain rfl := List.singleton_inj.mp htokens
    split <;> simp_all
  · rintro ⟨hword, hmarker⟩
    refine ⟨_, tokens_of_word hword, ?_, ?_⟩ <;> rw [Token.ofAtom_of_not_constant h]
    · rcases htype with rfl | rfl
      · rw [if_pos (hmarker.mp rfl)]
      · rw [if_neg fun hext => by simpa using hmarker.mpr hext]
    · split <;> rfl

end Reader

/-! ### Checked configurations -/

namespace Config

variable {c : Config}

theorem sigil_of_valid (h : c.IsValid) :
    c.sigil ≠ [] ∧ c.sigil.any (separators.contains ·) = false := by
  have hissues : sigilIssues c.sigil = [] := by
    simp only [IsValid, issues, List.append_eq_nil_iff] at h
    exact h.1.1.2
  unfold sigilIssues at hissues
  split_ifs at hissues with hne hsep
  exact ⟨hne, by simpa using hsep⟩

theorem marker_of_valid (h : c.IsValid) :
    c.marker ≠ [] ∧ c.marker.any (separators.contains ·) = false := by
  have hissues : markerIssues c.marker = [] := by
    simp only [IsValid, issues, List.append_eq_nil_iff] at h
    exact h.1.2
  unfold markerIssues at hissues
  split_ifs at hissues with hne hsep
  refine ⟨hne, List.any_eq_false.mpr fun b hb hin => hsep ?_⟩
  refine List.any_eq_true.mpr ⟨b, hb, ?_⟩
  rw [List.contains_iff_mem] at hin ⊢
  exact List.mem_append_left _ hin

end Config

namespace Session

open Reader (Leads)

variable {σ : Type}

/-- The word alone reads as one keyword. -/
def ReadsKeyword (s : Session σ) (word : Text) : Prop :=
  ∃ t, s.reader.tokens word = [t] ∧ t.type = .keyword ∧ t.text = word

/-- The word alone reads as one identifier, which in head position calls the method `name`. -/
def ReadsMethod (s : Session σ) (word name : Text) : Prop :=
  ∃ t, s.reader.tokens word = [t] ∧ t.type = .identifier ∧ t.text = word ∧
    s.machine.isMethodName t = true ∧ t.text.drop s.machine.effectiveSigil.length = name

/-- A start that is not empty is extended by whatever follows it. -/
theorem extendedBy_append (start : Text) {name : Text} (h : name ≠ []) :
    start.extendedBy (start ++ name) = true := by
  have hlen : 0 < name.length := List.length_pos_iff.mpr h
  simp [Text.extendedBy, hlen]

/-- **When keywords and method names can be written.** In a session with a checked configuration,
marker and name read as a keyword exactly when the marker leads a word; sigil and name read as a
call of the method exactly when the sigil leads a word and the whole does not start with the
marker. Names that make up a constant are left aside. -/
theorem checked_starts_readable_iff (c : Config) (hc : c.IsValid) (host : Host σ) (state : σ)
    (name : Text) (hn : name.IsName) :
    (¬ Token.IsConstant (c.marker ++ name) →
      ((start c host state).ReadsKeyword (c.marker ++ name) ↔ Leads c.marker)) ∧
    (¬ Token.IsConstant (c.sigil ++ name) →
      ((start c host state).ReadsMethod (c.sigil ++ name) name ↔
        Leads c.sigil ∧ c.marker.extendedBy (c.sigil ++ name) = false)) := by
  obtain ⟨hsigil, hsigilSep⟩ := Config.sigil_of_valid hc
  obtain ⟨hmarker, hmarkerSep⟩ := Config.marker_of_valid hc
  have hreader : (start c host state).reader.effectiveMarker = c.marker := if_neg hmarker
  have hmachine : (start c host state).machine.effectiveSigil = c.sigil := if_neg hsigil
  constructor
  · intro hconst
    rw [ReadsKeyword, Reader.tokens_eq_singleton_iff hconst (Or.inl rfl), hreader,
      Reader.word_append_name_iff hmarker hmarkerSep hn]
    simp [extendedBy_append c.marker hn.1]
  · intro hconst
    have hone := Reader.tokens_eq_singleton_iff (r := (start c host state).reader) hconst
      (Or.inr rfl : TokenType.identifier = .keyword ∨ TokenType.identifier = .identifier)
    rw [hreader, Reader.word_append_name_iff hsigil hsigilSep hn] at hone
    have hmarkerless : (TokenType.identifier = .keyword ↔
        c.marker.extendedBy (c.sigil ++ name) = true) ↔
          c.marker.extendedBy (c.sigil ++ name) = false := by
      simp
    rw [hmarkerless] at hone
    rw [← hone]
    -- an identifier with this text names the method whatever its position and value are
    refine ⟨fun ⟨t, htokens, htype, htext, _⟩ => ⟨t, htokens, htype, htext⟩, ?_⟩
    rintro ⟨t, htokens, htype, htext⟩
    refine ⟨t, htokens, htype, htext, ?_, ?_⟩
    · simp [Machine.isMethodName, htype, htext, hmachine, extendedBy_append c.sigil hn.1]
    · rw [hmachine, htext, List.drop_left]

/-- With `..` as the sigil and `.` as the marker, which the check lets pass, keywords can be written
and method names cannot; the other way round both can. -/
theorem overlapping_starts_hide_methods :
    let c : Config := ⟨"user", "..", ".", true⟩
    let c' : Config := ⟨"user", ".", "..", true⟩
    (c.IsValid ∧ (start c .none ()).ReadsKeyword ".Ping" ∧
      ¬ (start c .none ()).ReadsMethod "..Ping" "Ping") ∧
    c'.IsValid ∧ (start c' .none ()).ReadsKeyword "..Ping" ∧
      (start c' .none ()).ReadsMethod ".Ping" "Ping" := by
  intro c c'
  have hc : c.IsValid := by decide
  have hc' : c'.IsValid := by decide
  obtain ⟨hkeyword, hmethod⟩ := checked_starts_readable_iff c hc .none () "Ping" (by decide)
  obtain ⟨hkeyword', hmethod'⟩ := checked_starts_readable_iff c' hc' .none () "Ping" (by decide)
  refine ⟨⟨hc, (hkeyword (by decide)).mpr (by decide), fun h => ?_⟩, hc',
    (hkeyword' (by decide)).mpr (by decide), (hmethod' (by decide)).mpr (by decide)⟩
  exact absurd ((hmethod (by decide)).mp h).2 (by decide)

end Session

end LittleLisp
