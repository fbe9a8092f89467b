/-
# Printed data

Data is printed with its items between round brackets and blanks between them. Each of the texts that
an atom is printed as is one token by itself: the text of a number holds digits, signs and a point
and so is a word, a keyword without delimiters is one, and a string closes its own quotes. Tokens
that stand between delimiters do not run into each other, so what is read is a tree with the same
nesting, which is the same data again if each of its numbers and strings is by itself.

Key definitions: `Text.isPlain`, `Atom.ReadsBack`, `Value.Readable`, `Node.Denotes`.
Key theorems: `Reader.word_of_plain`, `Number.word_text`, `Value.Readable.exists_token`,
`Value.Readable.exists_tree`.
-/
import LittleLisp.Proofs.Maps
import LittleLisp.Proofs.Reading.Printed
import LittleLisp.Proofs.Reading.RoundTrip

namespace LittleLisp

/-! ### Plain words -/

/-- Whether a byte may stand anywhere in a word: a visible character that separates no tokens and
starts no comment. -/
def Text.isPlain (b : UInt8) : Bool := 36 ≤ b && b < 127 && !Config.separators.contains b

theorem Text.char_of_isPlain {b : UInt8} (h : isPlain b = true) :
    Reader.isDelimiter (.char (Char.ofNat b.toNat)) = false ∧
      Reader.isUnreadable (.char (Char.ofNat b.toNat)) = false ∧ Char.ofNat b.toNat ≠ '#' := by
  have hall : ∀ n : Fin 256, isPlain (UInt8.ofNat n) = true →
      Reader.isDelimiter (.char (Char.ofNat n)) = false ∧
        Reader.isUnreadable (.char (Char.ofNat n)) = false ∧ Char.ofNat n ≠ '#' := by
    decide +kernel
  have hb := hall ⟨b.toNat, b.toNat_lt⟩
  rw [UInt8.ofNat_toNat] at hb
  exact hb h

theorem Text.lt_of_isPlain {b : UInt8} (h : isPlain b = true) : b < 0x80 := by
  simp only [isPlain, Bool.and_eq_true, decide_eq_true_eq] at h
  exact UInt8.lt_trans h.1.2 (by decide)

theorem Reader.word_of_plain {t : Text} (hne : t ≠ []) (h : ∀ b ∈ t, Text.isPlain b = true) :
    Reader.Word t.glyphs := by
  have hglyphs : t.glyphs = t.map fun b => .char (Char.ofNat b.toNat) :=
    Text.glyphs_append_of_ascii [] fun b hb => Text.lt_of_isPlain (h b hb)
  obtain ⟨b, rest, rfl⟩ := List.exists_cons_of_ne_nil hne
  obtain ⟨-, hreadable, hsharp⟩ := Text.char_of_isPlain (h b List.mem_cons_self)
  rw [hglyphs]
  refine ⟨⟨_, _, rfl, hreadable⟩, fun g hg => ?_, fun hp => ?_⟩
  · obtain ⟨b', hb', rfl⟩ := List.mem_map.mp hg
    exact (Text.char_of_isPlain (h b' hb')).1
  · rw [List.map_cons, List.cons_prefix_cons] at hp
    exact hsharp (Glyph.char.inj hp.1).symm

/-! ### Numbers are words -/

namespace Text

theorem plain_ofNat (n : Nat) : ∀ b ∈ ofNat n, isPlain b = true := by
  intro b hb
  obtain ⟨c, hc, hb⟩ := List.mem_flatMap.mp hb
  have hdigit := Nat.isDigit_of_mem_toDigits (by decide) (by decide) hc
  have hrange : 48 ≤ c.toNat ∧ c.toNat ≤ 57 := by
    simpa [Char.isDigit, UInt32.le_iff_toNat_le] using hdigit
  have hall : ∀ k : Fin 58, 48 ≤ k.val →
      ∀ b ∈ String.utf8EncodeChar (Char.ofNat k), isPlain b = true := by decide +kernel
  have hplain := hall ⟨c.toNat, by omega⟩ hrange.1
  rw [Char.ofNat_toNat] at hplain
  exact hplain b hb

theorem ofNat_ne_nil (n : Nat) : ofNat n ≠ [] := by
  obtain ⟨c, cs, hdigits⟩ := List.exists_cons_of_ne_nil (Nat.toDigits_ne_nil (n := n) (b := 10))
  simp [ofNat, hdigits, ofChars]

end Text

theorem Decimal.plain_positional (d : Decimal) : ∀ b ∈ d.positional, Text.isPlain b = true := by
  have hdigits : ∀ b ∈ d.digitText, Text.isPlain b = true := Text.plain_ofNat d.digits
  have hzeros (k : Nat) : ∀ b ∈ List.replicate k (48 : UInt8), Text.isPlain b = true := by
    intro b hb
    rw [List.eq_of_mem_replicate hb]
    decide
  have hpoint : ∀ b ∈ Text.ofString ".", Text.isPlain b = true := by decide +kernel
  have hzero : ∀ b ∈ Text.ofString "0.", Text.isPlain b = true := by decide +kernel
  unfold positional
  dsimp only
  split
  · exact List.forall_mem_append.mpr ⟨hdigits, hzeros _⟩
  · split_ifs
    · refine List.forall_mem_append.mpr ⟨List.forall_mem_append.mpr ⟨?_, hpoint⟩, ?_⟩
      · exact fun b hb => hdigits b (List.mem_of_mem_take hb)
      · exact fun b hb => hdigits b (List.mem_of_mem_drop hb)
    · exact List.forall_mem_append.mpr ⟨List.forall_mem_append.mpr ⟨hzero, hzeros _⟩, hdigits⟩

theorem Decimal.positional_ne_nil (d : Decimal) : d.positional ≠ [] := by
  have hdigits : d.digitText ≠ [] := Text.ofNat_ne_nil d.digits
  unfold positional
  dsimp only
  split
  · exact List.append_ne_nil_of_left_ne_nil hdigits _
  · split_ifs
    · simp [Text.ofString, Text.ofChars]
    · exact List.append_ne_nil_of_right_ne_nil _ hdigits

/-- The text of a number is a word. -/
theorem Number.word_text (x : Float) : Reader.Word (Number.text x).glyphs := by
  refine Reader.word_of_plain ?_ ?_
  · unfold Number.text written
    split
    · decide
    · split_ifs <;> decide
    · exact List.append_ne_nil_of_right_ne_nil _ (Decimal.positional_ne_nil _)
  · unfold Number.text written
    split
    · decide +kernel
    · split_ifs <;> decide +kernel
    · refine List.forall_mem_append.mpr ⟨?_, Decimal.plain_positional _⟩
      split_ifs <;> decide +kernel

/-! ### Atoms -/

/-- Alone in a source, what the atom is printed as is read as an atom equal to it. -/
def Atom.ReadsBack (r : Reader) (a : Atom) : Prop :=
  ∃ t, r.tokens a.text = [t] ∧ t.value.same (.atom a) = true

instance (r : Reader) (a : Atom) : Decidable (a.ReadsBack r) :=
  decidable_of_iff ((r.tokens a.text).map (fun t => t.value.same (.atom a)) = [true])
    List.map_eq_singleton_iff

namespace Value

variable {r : Reader}

/-- Data that is made to be printed and read again: nested lists of `nil`, truth values, keywords
without delimiters, and numbers and strings that are read back each by itself. -/
inductive Readable (r : Reader) : Value → Prop where
  | nil : Readable r .nil
  | bool (b : Bool) : Readable r (.bool b)
  | keyword {name : Text} (hne : name ≠ [])
      (hname : ∀ g ∈ name.glyphs, Reader.isDelimiter g = false) :
      Readable r (.keyword (":" ++ name))
  | number {x : Float} (h : (Atom.number x).ReadsBack r) : Readable r (.number x)
  | string {t : Text} (h : (Atom.string t).ReadsBack r) : Readable r (.string t)
  | list (stamp : Nat) {items : List Value} (h : ∀ v ∈ items, Readable r v) :
      Readable r (.list stamp items)

theorem word_keyword {name : Text} (hname : ∀ g ∈ name.glyphs, Reader.isDelimiter g = false) :
    Reader.Word (":" ++ name : Text).glyphs := by
  have hglyphs : (":" ++ name : Text).glyphs = .char ':' :: name.glyphs :=
    Text.glyphs_ascii (a := 58) (by decide) name
  rw [hglyphs]
  refine ⟨⟨_, _, rfl, by decide⟩, List.forall_mem_cons.mpr ⟨by decide, hname⟩, fun hp => ?_⟩
  rw [List.cons_prefix_cons] at hp
  exact absurd hp.1 (by decide)

/-- With the usual marker, a keyword is read as itself. -/
theorem ofAtom_keyword {name : Text} (hne : name ≠ []) (p : Position) :
    Token.ofAtom ":" p (":" ++ name) = ⟨.keyword, p, ":" ++ name, .keyword (":" ++ name)⟩ := by
  have hconstant : ¬ Token.IsConstant (":" ++ name) := by
    have hnumeric : Number.looksNumeric (":" ++ name) = false := rfl
    have hcolon : 58 ∈ (":" ++ name : Text) := List.mem_cons_self
    rintro (h | h | h | ⟨h, -⟩)
    · rw [h] at hcolon
      exact absurd hcolon (by decide)
    · rw [h] at hcolon
      exact absurd hcolon (by decide)
    · rw [h] at hcolon
      exact absurd hcolon (by decide)
    · rw [hnumeric] at h
      cases h
  rw [Token.ofAtom_of_not_constant hconstant, if_pos (Session.extendedBy_append ":" hne)]

/-- An atom that is printed as a word, and stands for the value of that word. -/
theorem exists_token_of_word {a : Atom} (hword : Reader.Word a.text.glyphs)
    (hvalue : (Token.ofAtom r.effectiveMarker (r.position ⟨1, 1⟩) a.text).value.same (.atom a) =
      true) :
    ∃ t, r.tokens a.text = [t] ∧ t.text = a.text ∧ t.value.same (.atom a) = true := by
  obtain ⟨type, value, -, hatom⟩ := Reader.ofAtom_eq r.effectiveMarker a.text
  refine ⟨_, Reader.tokens_of_word hword, ?_, hvalue⟩
  rw [hatom]

/-- What is printed for an atom is one token, and the whole of it. -/
theorem Readable.exists_token (hmarker : r.effectiveMarker = ":") {a : Atom}
    (h : Readable r (.atom a)) :
    ∃ t, r.tokens a.text = [t] ∧ t.text = a.text ∧ t.value.same (.atom a) = true := by
  cases h with
  | nil => exact exists_token_of_word (Reader.word_of_plain (by decide) (by decide +kernel)) rfl
  | bool b =>
    have hword : Reader.Word (Atom.bool b).text.glyphs :=
      Reader.word_of_plain (by cases b <;> decide) (by cases b <;> decide +kernel)
    cases b <;> exact exists_token_of_word hword rfl
  | @keyword name hne hname =>
    refine exists_token_of_word (word_keyword hname) ?_
    have hvalue := ofAtom_keyword hne (r.position ⟨1, 1⟩)
    rw [hmarker, Atom.text, hvalue]
    simp [same, Atom.same]
  | @number x h =>
    obtain ⟨t, htokens, hsame⟩ := h
    have hword := Number.word_text x
    refine exists_token_of_word hword ?_
    have hread := (Reader.tokens_of_word (r := r) hword).symm.trans htokens
    rwa [Atom.text, List.singleton_inj.mp hread]
  | @string t h =>
    obtain ⟨token, htokens, hsame⟩ := h
    refine ⟨token, htokens, ?_, hsame⟩
    have hread := (Reader.tokens_quote r t).symm.trans htokens
    rw [← List.singleton_inj.mp hread]
    rfl

/-! ### Trees that denote data -/

theorem isNaN_of_same {w v : Value} (h : w.same v = true) : w.isNaN = false := by
  cases w with
  | atom a =>
    cases v with
    | atom b =>
      have hsame : a.same b = true := by simpa [same] using h
      cases hnan : a.isNaN with
      | false => exact hnan
      | true =>
        rw [Atom.same_of_isNaN hnan] at hsame
        cases hsame
    | _ => simp [same] at h
  | _ => rfl

end Value

/-- What is equal to such data is neither a fault nor missing. -/
theorem Value.Readable.of_same {r : Reader} {v w : Value} (h : v.Readable r)
    (hsame : w.same v = true) : w.isError = false ∧ w.orNil = w := by
  cases w with
  | error f => cases h <;> simp [Value.same] at hsame
  | absent => cases h <;> simp [Value.same] at hsame
  | _ => exact ⟨rfl, rfl⟩

/-- The tree has no brackets at its leaves and is, as data, equal to the value and in need of no
stamp. -/
structure Node.Denotes (n : Node) (v : Value) : Prop where
  leaves : n.Every Token.IsLeaf
  same : n.datum.same v = true
  settled : ∀ k, n.datum.settled k = (n.datum, k)

namespace Value

open Reader (Reads Spelled)
open Node (linear linearAll Denotes)
open Token (roundOpening roundClosing)

variable {r : Reader}

theorem eq_atom_of_same {w : Value} {a : Atom} (h : w.same (.atom a) = true) : ∃ b, w = .atom b := by
  cases w with
  | atom b => exact ⟨b, rfl⟩
  | _ => simp [Value.same] at h

/-- An identifier stands for no atom. -/
theorem value_ofAtom_of_identifier {marker word : Text} {p : Position}
    (h : (Token.ofAtom marker p word).type = .identifier) :
    (Token.ofAtom marker p word).value = .undefined word := by
  revert h
  unfold Token.ofAtom
  dsimp only
  repeat' split
  all_goals simp

/-- A spelled token that stands for an atom is a leaf, and no identifier. -/
theorem isLeaf_of_spelled {gs : List Glyph} {t : Token} (hspelled : Spelled r gs t) {a : Atom}
    (hvalue : t.value = .atom a) : t.IsLeaf ∧ t.type ≠ .identifier := by
  cases hspelled with
  | word p h =>
    obtain ⟨type, value, htype, hatom⟩ := Reader.ofAtom_eq r.effectiveMarker (Glyph.bytes gs)
    refine ⟨?_, fun hid => ?_⟩
    · rw [hatom]
      rcases htype with rfl | rfl | rfl <;> constructor <;> simp
    · rw [value_ofAtom_of_identifier hid] at hvalue
      cases hvalue
  | string p h => exact ⟨⟨by simp, by simp, by simp⟩, by simp⟩
  | _ => cases hvalue

/-- A word or a string that stands for an atom is a leaf with this atom as its datum. -/
theorem denotes_leaf {gs : List Glyph} {t : Token} (hspelled : Spelled r gs t) {a : Atom}
    (hsame : t.value.same (.atom a) = true) : (Node.leaf t).Denotes (.atom a) := by
  obtain ⟨b, hb⟩ := eq_atom_of_same hsame
  obtain ⟨hleaf, htype⟩ := isLeaf_of_spelled hspelled hb
  have hdatum : (Node.leaf t).datum = .atom b := by
    rw [Node.datum, if_neg htype, hb]
    rfl
  rw [hb] at hsame
  exact ⟨.leaf hleaf, by rwa [hdatum], fun k => by rw [hdatum]; rfl⟩

/-- What is printed for an atom is read as a leaf that denotes it, wherever it stands. -/
theorem Readable.exists_leaf (hmarker : r.effectiveMarker = ":") {a : Atom}
    (h : Readable r (.atom a)) : ∃ t, Reads r a.text [t] ∧ (Node.leaf t).Denotes (.atom a) := by
  obtain ⟨t, htokens, htext, hsame⟩ := h.exists_token hmarker
  have hspelled := r.spelled_tokens a.text t (by rw [htokens]; exact List.mem_singleton_self t)
  obtain ⟨b, hb⟩ := eq_atom_of_same hsame
  have hreads := hspelled.reads (isLeaf_of_spelled hspelled hb).1
  rw [htext] at hreads
  exact ⟨t, hreads, denotes_leaf hspelled hsame⟩

theorem leaves_of_denotes {ns : List Node} {items : List Value}
    (h : List.Forall₂ Denotes ns items) : ∀ n ∈ ns, n.Every Token.IsLeaf := by
  induction h with
  | nil => simp
  | cons hn _ ih => exact List.forall_mem_cons.mpr ⟨hn.leaves, ih⟩

theorem sameItems_data {ns : List Node} {items : List Value} (h : List.Forall₂ Denotes ns items) :
    sameItems (Node.data ns) items = true := by
  induction h with
  | nil => rfl
  | cons hn _ ih => simp [Node.data, sameItems, hn.same, ih]

theorem settledItems_data {ns : List Node} {items : List Value}
    (h : List.Forall₂ Denotes ns items) (k : Nat) :
    settledItems (Node.data ns) k = (Node.data ns, k) := by
  induction h with
  | nil => rfl
  | cons hn _ ih => simp [Node.data, settledItems, hn.settled k, ih]

theorem any_isNaN_data {ns : List Node} {items : List Value} (h : List.Forall₂ Denotes ns items) :
    (Node.data ns).any isNaN = false := by
  induction h with
  | nil => rfl
  | cons hn _ ih => simp only [Node.data, List.any_cons, isNaN_of_same hn.same, ih, Bool.or_self]

/-- A form of trees that denote some data denotes the list of them. -/
theorem denotes_form {ns : List Node} {items : List Value} (stamp : Nat)
    (h : List.Forall₂ Denotes ns items) : (Node.form ns).Denotes (.list stamp items) where
  leaves := .form (leaves_of_denotes h)
  same := by
    rw [Node.datum, Value.same, sameItems_data h, Bool.or_true]
  settled k := by
    rw [Node.datum, Value.settled, settledItems_data h]
    simp [stamped, needsStamp, any_isNaN_data h]

variable (L : Legend)

/-- Items that can be printed and read one by one. -/
theorem itemTexts_of_each : ∀ {items : List Value},
    (∀ v ∈ items, ∃ x n, v.text L = .ok x ∧ Reads r x (linear roundOpening roundClosing n) ∧
      n.Denotes v) →
    ∃ parts ns, itemTexts L items = .ok parts ∧
      List.Forall₂ (fun x n => Reads r x (linear roundOpening roundClosing n)) parts ns ∧
      List.Forall₂ Denotes ns items
  | [], _ => ⟨[], [], by rw [itemTexts], .nil, .nil⟩
  | v :: items, h => by
    rw [List.forall_mem_cons] at h
    obtain ⟨⟨x, n, hx, hreads, hn⟩, hitems⟩ := h
    obtain ⟨parts, ns, hparts, hall, hns⟩ := itemTexts_of_each hitems
    exact ⟨x :: parts, n :: ns, by rw [itemTexts, hx, hparts]; rfl, .cons hreads hall, .cons hn hns⟩

/-- Printed data is read as a tree that denotes it. -/
theorem Readable.exists_tree (hmarker : r.effectiveMarker = ":") {v : Value} (h : Readable r v) :
    ∃ x n, v.text L = .ok x ∧ Reads r x (linear roundOpening roundClosing n) ∧ n.Denotes v := by
  have hatom {a : Atom} (ha : Readable r (.atom a)) : ∃ x n, (Value.atom a).text L = .ok x ∧
      Reads r x (linear roundOpening roundClosing n) ∧ n.Denotes (.atom a) := by
    obtain ⟨t, hreads, hdenotes⟩ := ha.exists_leaf hmarker
    exact ⟨a.text, .leaf t, by rw [Value.text], by rwa [Node.linear_leaf], hdenotes⟩
  induction h with
  | nil => exact hatom .nil
  | bool b => exact hatom (.bool b)
  | keyword hne hname => exact hatom (.keyword hne hname)
  | number h => exact hatom (.number h)
  | string h => exact hatom (.string h)
  | @list stamp items _ ih =>
    obtain ⟨parts, ns, hparts, hreads, hdenotes⟩ := itemTexts_of_each L ih
    refine ⟨Text.concat ["(", Text.join " " parts, ")"], .form ns, by rw [Value.text, hparts]; rfl,
      ?_, denotes_form stamp hdenotes⟩
    rw [Node.linear_form]
    exact (Forest.reads_join (by decide) (by decide) hreads).enclosed

end Value

end LittleLisp
