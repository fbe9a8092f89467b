/-
# Layout of a source

Reading loses nothing but what separates tokens: a source is gaps and the texts of its
tokens in turn, and the position of a token says how many line breaks come before it and how
many glyphs come before it on its line.

The reader works glyph by glyph, so the proof follows what it has accounted for so far: the
tokens that are finished, laid out, and after them what its mode says has been read since.

Key definitions: `Position.following`, `Reader.Layout`, `Reader.Trail`, `Reader.Accounts`.
Key theorems: `Reader.position_past`, `Reader.accounts_step`, `Reader.layout_finish`,
`Reader.tokens_laid_out`.
-/
import Mathlib.Data.List.DropRight
import LittleLisp.Proofs.Reading.Lexeme

namespace LittleLisp

/-- What follows the last line break of a text. -/
def Text.lastLine (t : Text) : Text := t.rtakeWhile (· != 10)

/-- The position of what follows a text in a module's source. -/
def Position.following (module before : Text) : Position :=
  ⟨module, 1 + before.count 10, 1 + before.lastLine.runeCount⟩

theorem Position.isUnknown_following (module before : Text) :
    (Position.following module before).isUnknown = false := by
  have hline : (1 + (before.count 10 : Int)) ≠ 0 := by omega
  simpa [Position.isUnknown, Position.following] using hline

namespace Reader

open Glyph (Legible)

/-! ### Places -/

/-- The place after some glyphs from the start of a source. -/
def past (gs : List Glyph) : Place := gs.foldl Place.after ⟨1, 1⟩

theorem past_concat (gs : List Glyph) (g : Glyph) : past (gs ++ [g]) = (past gs).after g := by
  simp [past]

theorem after_of_ne (p : Place) {g : Glyph} (hg : g ≠ .char '\n') :
    p.after g = ⟨p.line, p.column + 1⟩ := by
  unfold Place.after
  split
  · exact absurd rfl hg
  · rfl

/-- A place counts the line breaks, and the glyphs since the last one. -/
theorem past_eq (gs : List Glyph) :
    past gs = ⟨1 + gs.count (.char '\n'), 1 + (gs.rtakeWhile (· != .char '\n')).length⟩ := by
  induction gs using List.reverseRecOn with
  | nil => rfl
  | append_singleton gs g ih =>
    rw [past_concat, ih]
    by_cases hg : g = .char '\n'
    · subst hg
      simp [Place.after, Nat.add_assoc]
    · rw [after_of_ne _ hg]
      simp [hg, Nat.add_assoc]

/-- The same counts on the bytes. -/
theorem count_bytes : ∀ {gs : List Glyph}, Legible gs →
    (Glyph.bytes gs).count 10 = gs.count (.char '\n')
  | [], _ => rfl
  | g :: gs, h => by
    have ih := count_bytes (Glyph.legible_cons_iff.mp h).1
    have hmem := h.mem_encode_iff (a := 10) (by decide)
    rw [Glyph.bytes_cons, List.count_append, ih]
    by_cases hg : g = .char '\n'
    · subst hg
      rw [List.count_cons_self, Nat.add_comm]
      rfl
    · have hnot : (10 : UInt8) ∉ g.encode := fun hm => hg (hmem.mp hm)
      rw [List.count_eq_zero.mpr hnot, List.count_cons_of_ne hg, Nat.zero_add]

theorem lastLine_append {t u : Text} (h : 10 ∉ u) : (t ++ u).lastLine = t.lastLine ++ u := by
  have hu : ∀ b ∈ u.reverse, (b != 10) = true := by
    intro b hb
    rw [bne_iff_ne]
    rintro rfl
    exact h (List.mem_reverse.mp hb)
  unfold Text.lastLine List.rtakeWhile
  rw [List.reverse_append, List.takeWhile_append_of_pos hu, List.reverse_append,
    List.reverse_reverse]

/-- The last line of the bytes is the bytes of the last line. -/
theorem lastLine_bytes {gs : List Glyph} (h : Legible gs) :
    (Glyph.bytes gs).lastLine = Glyph.bytes (gs.rtakeWhile (· != .char '\n')) := by
  induction gs using List.reverseRecOn with
  | nil => rfl
  | append_singleton gs g ih =>
    have hmem := h.right.mem_encode_iff (a := 10) (by decide)
    rw [Glyph.bytes_append, Glyph.bytes_cons, Glyph.bytes_nil, List.append_nil]
    by_cases hg : g = .char '\n'
    · subst hg
      have hencode : (Glyph.char '\n').encode = [10] := rfl
      rw [hencode]
      simp [Text.lastLine]
    · have hnot : (10 : UInt8) ∉ g.encode := fun hm => hg (hmem.mp hm)
      rw [lastLine_append hnot, ih h.left, List.rtakeWhile_concat_pos _ _ _ (by simpa using hg)]
      simp

/-- The place that the reader has come to is the position that follows what it has read. -/
theorem position_past (r : Reader) {gs : List Glyph} (h : Legible gs) :
    r.position (past gs) = .following r.module (Glyph.bytes gs) := by
  have hsuffix : gs.rtakeWhile (· != .char '\n') <:+ gs := List.rtakeWhile_suffix _ _
  obtain ⟨hs, hhs⟩ := hsuffix
  have hline : Legible (gs.rtakeWhile (· != .char '\n')) := by
    rw [← hhs] at h
    exact h.right
  rw [past_eq, position, Position.following, count_bytes h, lastLine_bytes h, Text.runeCount, hline]
  simp

/-! ### Laid out tokens -/

/-- The text is gaps and tokens in turn, up to the end of the last token: each token is spelled by
its own text, and its position is that of what follows the gap before it. -/
inductive Layout (r : Reader) : Text → List Token → Prop where
  | nil : Layout r [] []
  | token {before gap : Text} {ts : List Token} {t : Token} (h : Layout r before ts)
      (gap_ok : Gap gap.glyphs) (spelled : Spelled r t.text.glyphs t) (nonempty : t.text ≠ [])
      (pos : t.pos = .following r.module (before ++ gap)) :
      Layout r (before ++ gap ++ t.text) (ts ++ [t])

variable {r : Reader}

theorem pos_ofAtom (marker : Text) (p : Position) (word : Text) :
    (Token.ofAtom marker p word).pos = p := by
  obtain ⟨type, value, -, hatom⟩ := ofAtom_eq marker word
  rw [hatom]

theorem Spelled.text {gs : List Glyph} {t : Token} (h : Spelled r gs t) :
    t.text = Glyph.bytes gs := by
  cases h with
  | word p h =>
    obtain ⟨type, value, -, hatom⟩ := ofAtom_eq r.effectiveMarker (Glyph.bytes gs)
    rw [hatom]
  | _ => rfl

theorem Spelled.ne_nil {gs : List Glyph} {t : Token} (h : Spelled r gs t) : gs ≠ [] := by
  cases h with
  | word p h =>
    obtain ⟨g, rest, rfl, -⟩ := h.starts
    simp
  | invalid p h =>
    cases h with
    | string h =>
      obtain ⟨body, rfl, -⟩ := h
      simp
    | _ => simp
  | _ => simp [inQuotes]

theorem bytes_ne_nil {gs : List Glyph} (h : gs ≠ []) : Glyph.bytes gs ≠ [] := by
  cases gs with
  | nil => exact absurd rfl h
  | cons g gs => simp [g.encode_ne_nil]

/-- One more token after a gap. -/
theorem Layout.push {before gap spelling : List Glyph} {ts : List Token} {t : Token}
    (h : Layout r (Glyph.bytes before) ts) (hl : Legible (before ++ (gap ++ spelling)))
    (hg : Gap gap) (ht : Spelled r spelling t) (hpos : t.pos = r.position (past (before ++ gap))) :
    Layout r (Glyph.bytes (before ++ (gap ++ spelling))) (ts ++ [t]) := by
  have hgap : Legible gap := hl.right.left
  have hspelling : Legible spelling := hl.right.right
  have hbefore : Legible (before ++ gap) := by
    rw [← List.append_assoc] at hl
    exact hl.left
  have hsplit : Glyph.bytes (before ++ (gap ++ spelling)) =
      Glyph.bytes before ++ Glyph.bytes gap ++ t.text := by
    rw [ht.text, Glyph.bytes_append, Glyph.bytes_append, List.append_assoc]
  rw [hsplit]
  refine .token h ?_ ?_ ?_ ?_
  · rwa [hgap]
  · rwa [ht.text, hspelling]
  · rw [ht.text]
    exact bytes_ne_nil ht.ne_nil
  · rw [hpos, position_past r hbefore, Glyph.bytes_append]

theorem Layout.spelled_of_mem {x : Text} {ts : List Token} (h : Layout r x ts) :
    ∀ t ∈ ts, Spelled r t.text.glyphs t := by
  induction h with
  | nil => simp
  | token _ _ hs _ _ ih =>
    intro t ht
    rcases List.mem_append.mp ht with ht | ht
    · exact ih t ht
    · rwa [List.mem_singleton.mp ht]

theorem Layout.known_of_mem {x : Text} {ts : List Token} (h : Layout r x ts) :
    ∀ t ∈ ts, t.pos.isUnknown = false := by
  induction h with
  | nil => simp
  | token _ _ _ _ hpos ih =>
    intro t ht
    rcases List.mem_append.mp ht with ht | ht
    · exact ih t ht
    · rw [List.mem_singleton.mp ht, hpos]
      exact Position.isUnknown_following _ _

/-! ### One more glyph of a lexeme -/

theorem word_hash : Word [.char '#'] := ⟨⟨_, _, rfl, by decide⟩, by decide, by decide⟩

theorem Word.concat {gs : List Glyph} {g : Glyph} (h : Word gs) (hg : isDelimiter g = false)
    (hc : gs = [.char '#'] → g ≠ .char '|') : Word (gs ++ [g]) := by
  obtain ⟨g₀, rest, rfl, hreadable⟩ := h.starts
  refine ⟨⟨g₀, rest ++ [g], rfl, hreadable⟩, ?_, fun hp => ?_⟩
  · intro x hx
    rcases List.mem_append.mp hx with hx | hx
    · exact h.unbroken x hx
    · rwa [List.mem_singleton.mp hx]
  · cases rest with
    | nil =>
      -- a comment would have to start with just these two glyphs
      simp only [List.singleton_append, List.cons_prefix_cons, List.prefix_nil, and_true] at hp
      obtain ⟨rfl, rfl, -⟩ := hp
      exact hc rfl rfl
    | cons g₁ rest =>
      refine h.noComment (List.prefix_of_prefix_length_le hp (List.prefix_append _ _) ?_)
      simp

theorem LineComment.concat {c : List Glyph} {g : Glyph} (h : LineComment c) (hg : g ≠ .char '\n') :
    LineComment (c ++ [g]) := by
  obtain ⟨body, rfl, hbody⟩ := h
  refine ⟨body ++ [g], rfl, fun hm => ?_⟩
  rcases List.mem_append.mp hm with hm | hm
  · exact hbody hm
  · exact hg (List.mem_singleton.mp hm).symm

theorem BlockInside.concat {inside : List Glyph} {g : Glyph} (h : BlockInside inside)
    (hg : inside.getLast? = some (.char '|') → g ≠ .char '#') : BlockInside (inside ++ [g]) := by
  refine ⟨?_, fun hi => ?_⟩
  · rw [List.head?_append, h.starts]
    rfl
  · rcases List.infix_concat_iff.mp hi with hsuffix | hinfix
    · obtain ⟨pre, hpre⟩ := hsuffix
      have hpre : pre ++ [.char '|'] ++ [.char '#'] = inside ++ [g] := by simpa using hpre
      obtain ⟨rfl, hsharp⟩ := List.append_inj' hpre rfl
      exact hg (by simp) (List.singleton_inj.mp hsharp).symm
    · exact h.unclosed hinfix

theorem StringStart.plain {gs : List Glyph} {cs : List Char} {g : Glyph}
    (h : StringStart gs cs false) (hq : g ≠ .char '"') (hb : g ≠ .char '\\') :
    StringStart (gs ++ [g]) (cs ++ [g.repaired]) false := by
  obtain ⟨body, rfl, hbody⟩ := h
  exact ⟨body ++ [g], by simp, hbody.append (.plain hq hb .nil)⟩

theorem StringStart.backslash {gs : List Glyph} {cs : List Char} (h : StringStart gs cs false) :
    StringStart (gs ++ [.char '\\']) cs true := by
  obtain ⟨body, rfl, hbody⟩ := h
  exact ⟨body, by simp, hbody⟩

theorem StringStart.escaped {gs : List Glyph} {cs : List Char} {g : Glyph}
    (h : StringStart gs cs true) : StringStart (gs ++ [g]) (cs ++ [escapedChar g]) false := by
  obtain ⟨body, rfl, hbody⟩ := h
  exact ⟨body ++ [.char '\\', g], by simp, hbody.append (.escaped .nil)⟩

/-! ### What the reader has accounted for -/

/-- What a mode says about the glyphs since the last finished token, which ends after `before`. -/
inductive Trail (before : List Glyph) : Mode → List Glyph → Prop where
  | idle {gap : List Glyph} (hg : Gap gap) : Trail before .idle gap
  | hash {gap : List Glyph} (hg : Gap gap) :
      Trail before (.hash (past (before ++ gap))) (gap ++ [.char '#'])
  | word {gap seen : List Glyph} (hg : Gap gap) (hw : Word seen.reverse)
      (hh : seen ≠ [.char '#']) :
      Trail before (.word (past (before ++ gap)) seen) (gap ++ seen.reverse)
  | string {gap seen : List Glyph} {value : List Char} {escaped : Bool} (hg : Gap gap)
      (hs : StringStart seen.reverse value.reverse escaped) :
      Trail before (.string (past (before ++ gap)) seen value escaped) (gap ++ seen.reverse)
  | lineComment {gap c : List Glyph} (hg : Gap gap) (hc : LineComment c) :
      Trail before .lineComment (gap ++ c)
  | blockComment {gap seen inside : List Glyph} {bar : Bool} (hg : Gap gap)
      (hseen : seen.reverse = .char '#' :: inside) (hi : BlockInside inside)
      (hbar : bar = true ↔ inside.getLast? = some (.char '|')) :
      Trail before (.blockComment (past (before ++ gap)) seen bar) (gap ++ seen.reverse)

/-- The glyphs read so far: the finished tokens, laid out, and what the mode says after them. -/
structure Accounts (r : Reader) (gs : List Glyph) (s : State) : Prop where
  place : s.place = past gs
  split : ∃ before trail, gs = before ++ trail ∧ Layout r (Glyph.bytes before) s.done.reverse ∧
    Trail before s.mode trail

variable {s : State} {gs : List Glyph}

theorem accounts_initial (r : Reader) : Accounts r [] initial :=
  ⟨rfl, [], [], rfl, .nil, .idle .nil⟩

/-- A token that is finished with the last glyph. -/
theorem accounts_of_token {before gap spelling : List Glyph} {ts : List Token} {t : Token}
    (hl : Legible (before ++ (gap ++ spelling))) (h : Layout r (Glyph.bytes before) ts.reverse)
    (hg : Gap gap) (ht : Spelled r spelling t) (hpos : t.pos = r.position (past (before ++ gap)))
    (depth : Nat) :
    Accounts r (before ++ (gap ++ spelling))
      ⟨past (before ++ (gap ++ spelling)), depth, .idle, t :: ts⟩ := by
  refine ⟨rfl, before ++ (gap ++ spelling), [], (List.append_nil _).symm, ?_, .idle .nil⟩
  rw [List.reverse_cons]
  exact h.push hl hg ht hpos

theorem accounts_startToken {g : Glyph} (h : Accounts r gs s) (hs : s.mode = .idle)
    (hl : Legible (gs ++ [g])) : Accounts r (gs ++ [g]) (startToken r s g) := by
  obtain ⟨hplace, before, gap, rfl, hlay, htrail⟩ := h
  rw [hs] at htrail
  cases htrail with
  | idle hg =>
    rw [List.append_assoc] at hl ⊢
    have hnext : s.place.after g = past (before ++ (gap ++ [g])) := by
      rw [hplace, ← past_concat, List.append_assoc]
    -- the glyph goes into the trail, or it is a token
    have hstay {mode : Mode} (htrail : Trail before mode (gap ++ [g])) :
        Accounts r (before ++ (gap ++ [g])) ⟨s.place.after g, s.depth, mode, s.done⟩ :=
      ⟨hnext, before, _, rfl, hlay, htrail⟩
    have htoken {t : Token} (ht : Spelled r [g] t) (hpos : t.pos = r.position s.place)
        (depth : Nat) :
        Accounts r (before ++ (gap ++ [g])) ⟨s.place.after g, depth, .idle, t :: s.done⟩ := by
      rw [hnext]
      exact accounts_of_token hl hlay hg ht (by rw [hpos, hplace]) depth
    unfold startToken
    dsimp only
    simp only [beq_iff_eq, Bool.or_eq_true]
    split_ifs with hblank hline hhash hopen hclose hdepth hquote hbad
    · exact hstay (.idle (hg.append (.blank hblank .nil)))
    · exact hstay (.lineComment hg ⟨[], by rw [hline], by simp⟩)
    · subst hhash
      refine hstay ?_
      rw [hplace]
      exact .hash hg
    · exact htoken (.opening _ hopen) rfl _
    · exact htoken (.invalid _ (.bracket hclose)) rfl _
    · exact htoken (.closing _ hclose) rfl _
    · subst hquote
      have hstart : StringStart [Glyph.char '"'].reverse ([] : List Char).reverse false :=
        ⟨[], rfl, .nil⟩
      refine hstay ?_
      rw [hplace]
      exact .string hg hstart
    · exact htoken (.invalid _ (.glyph hbad)) rfl _
    · have hword : Word [g].reverse := by
        refine ⟨⟨g, [], rfl, by simpa using hbad⟩, ?_, fun hp => absurd hp.length_le (by simp)⟩
        simp only [List.reverse_singleton, List.forall_mem_singleton, Bool.eq_false_iff, ne_eq,
          isDelimiter_iff]
        tauto
      refine hstay ?_
      rw [hplace]
      exact .word hg hword (by simpa using hhash)

/-- Finishing an open word accounts for the same glyphs. -/
theorem accounts_settled (h : Accounts r gs s) (hs : Open s.mode) (hl : Legible gs) :
    Accounts r gs (settled r s) := by
  obtain ⟨hplace, before, trail, rfl, hlay, htrail⟩ := h
  obtain ⟨place, depth, mode, done⟩ := s
  obtain rfl : place = past (before ++ trail) := hplace
  cases htrail with
  | idle hg => exact ⟨rfl, before, trail, rfl, hlay, .idle hg⟩
  | hash hg => exact accounts_of_token hl hlay hg (.word _ word_hash) (pos_ofAtom _ _ _) depth
  | word hg hw hh => exact accounts_of_token hl hlay hg (.word _ hw) (pos_ofAtom _ _ _) depth
  | _ => cases hs

section Modes

variable {before gap : List Glyph} {done : List Token} {g : Glyph}

/-- A glyph that finishes no token goes into the trail. -/
theorem accounts_of_trail {trail : List Glyph} {mode : Mode}
    (hlay : Layout r (Glyph.bytes before) done.reverse) (ht : Trail before mode (trail ++ [g]))
    (depth : Nat) :
    Accounts r (before ++ trail ++ [g]) ⟨(past (before ++ trail)).after g, depth, mode, done⟩ :=
  ⟨(past_concat _ _).symm, before, trail ++ [g], List.append_assoc _ _ _, hlay, ht⟩

theorem accounts_step_hash (hlay : Layout r (Glyph.bytes before) done.reverse) (hg : Gap gap)
    (hd : isDelimiter g = false) (depth : Nat) :
    Accounts r (before ++ (gap ++ [.char '#']) ++ [g])
      (step r ⟨past (before ++ (gap ++ [.char '#'])), depth, .hash (past (before ++ gap)), done⟩
        g) := by
  rw [step]
  dsimp only
  by_cases hbar : g = .char '|'
  · subst hbar
    have ht : Trail before (.blockComment (past (before ++ gap)) [.char '|', .char '#'] true)
        (gap ++ [.char '|', .char '#'].reverse) :=
      .blockComment hg rfl ⟨rfl, by decide⟩ (by simp)
    rw [if_pos (by decide)]
    exact accounts_of_trail hlay (by simpa using ht) depth
  · have htwo : Word [g, .char '#'].reverse := word_hash.concat hd fun _ => hbar
    have ht := @Trail.word before _ _ hg htwo (by simp)
    rw [if_neg (by simpa using hbar), continueWord, if_neg (by simp [hd])]
    exact accounts_of_trail hlay (by simpa using ht) depth

theorem accounts_step_word {seen : List Glyph} (hlay : Layout r (Glyph.bytes before) done.reverse)
    (hg : Gap gap) (hw : Word seen.reverse) (hh : seen ≠ [.char '#']) (hd : isDelimiter g = false)
    (depth : Nat) :
    Accounts r (before ++ (gap ++ seen.reverse) ++ [g])
      (step r ⟨past (before ++ (gap ++ seen.reverse)), depth,
        .word (past (before ++ gap)) seen, done⟩ g) := by
  have hmore : Word (g :: seen).reverse := by
    rw [List.reverse_cons]
    exact hw.concat hd fun hs => absurd (List.reverse_eq_iff.mp hs) hh
  have hlong : g :: seen ≠ [.char '#'] := by
    intro heq
    obtain ⟨g₀, rest, hstart, -⟩ := hw.starts
    rw [(List.cons.inj heq).2] at hstart
    cases hstart
  have ht := @Trail.word before _ _ hg hmore hlong
  rw [step]
  dsimp only
  rw [continueWord, if_neg (by simp [hd])]
  rw [List.reverse_cons, ← List.append_assoc] at ht
  exact accounts_of_trail hlay ht depth

theorem accounts_step_string {seen : List Glyph} {value : List Char} {escaped : Bool}
    (hlay : Layout r (Glyph.bytes before) done.reverse) (hg : Gap gap)
    (hs : StringStart seen.reverse value.reverse escaped)
    (hl : Legible (before ++ (gap ++ seen.reverse) ++ [g])) (depth : Nat) :
    Accounts r (before ++ (gap ++ seen.reverse) ++ [g])
      (step r ⟨past (before ++ (gap ++ seen.reverse)), depth,
        .string (past (before ++ gap)) seen value escaped, done⟩ g) := by
  have hmore {value' : List Char} {escaped' : Bool}
      (h : StringStart (seen.reverse ++ [g]) value'.reverse escaped') :
      Accounts r (before ++ (gap ++ seen.reverse) ++ [g])
        ⟨(past (before ++ (gap ++ seen.reverse))).after g, depth,
          .string (past (before ++ gap)) (g :: seen) value' escaped', done⟩ := by
    rw [← List.reverse_cons] at h
    have ht := @Trail.string before _ _ _ _ hg h
    rw [List.reverse_cons, ← List.append_assoc] at ht
    exact accounts_of_trail hlay ht depth
  rw [step]
  dsimp only
  cases escaped with
  | true =>
    refine hmore ?_
    rw [List.reverse_cons]
    exact hs.escaped
  | false =>
    simp only [Bool.false_eq_true, if_false, beq_iff_eq]
    split_ifs with hquote hslash
    · -- the closing quote finishes the token
      subst hquote
      obtain ⟨body, hbody, hvalue⟩ := hs
      have hseen : (Glyph.char '"' :: seen).reverse = inQuotes body := by
        rw [List.reverse_cons, hbody]
        simp [inQuotes]
      have hall : before ++ (gap ++ seen.reverse) ++ [.char '"'] =
          before ++ (gap ++ inQuotes body) := by
        rw [← hseen, List.reverse_cons, List.append_assoc, List.append_assoc]
      rw [← past_concat, hseen, hall]
      rw [hall] at hl
      exact accounts_of_token hl hlay hg (.string _ hvalue) rfl depth
    · subst hslash
      exact hmore hs.backslash
    · refine hmore ?_
      rw [List.reverse_cons]
      exact hs.plain hquote hslash

theorem accounts_step_lineComment {c : List Glyph}
    (hlay : Layout r (Glyph.bytes before) done.reverse) (hg : Gap gap) (hc : LineComment c)
    (depth : Nat) :
    Accounts r (before ++ (gap ++ c) ++ [g])
      (step r ⟨past (before ++ (gap ++ c)), depth, .lineComment, done⟩ g) := by
  rw [step]
  dsimp only
  simp only [beq_iff_eq]
  split_ifs with hbreak
  · subst hbreak
    have hgap : Gap (gap ++ c ++ [.char '\n']) := by
      rw [List.append_assoc]
      exact hg.append (.line hc .nil)
    exact accounts_of_trail hlay (.idle hgap) depth
  · have ht := @Trail.lineComment before _ _ hg (hc.concat hbreak)
    rw [← List.append_assoc] at ht
    exact accounts_of_trail hlay ht depth

theorem accounts_step_blockComment {seen inside : List Glyph} {bar : Bool}
    (hlay : Layout r (Glyph.bytes before) done.reverse) (hg : Gap gap)
    (hseen : seen.reverse = .char '#' :: inside) (hi : BlockInside inside)
    (hbar : bar = true ↔ inside.getLast? = some (.char '|')) (depth : Nat) :
    Accounts r (before ++ (gap ++ seen.reverse) ++ [g])
      (step r ⟨past (before ++ (gap ++ seen.reverse)), depth,
        .blockComment (past (before ++ gap)) seen bar, done⟩ g) := by
  rw [step]
  dsimp only
  simp only [Bool.and_eq_true, beq_iff_eq]
  split_ifs with hclose
  · obtain ⟨hlast, rfl⟩ := hclose
    have hgap : Gap (gap ++ seen.reverse ++ [.char '#']) := by
      have hcomment : BlockComment (seen.reverse ++ [.char '#']) :=
        ⟨inside, by rw [hseen], hi, hbar.mp hlast⟩
      have h := hg.append (.block hcomment .nil)
      rwa [List.append_nil, ← List.append_assoc] at h
    exact accounts_of_trail hlay (.idle hgap) depth
  · have hmore : BlockInside (inside ++ [g]) :=
      hi.concat fun hlast hsharp => hclose ⟨hbar.mpr hlast, hsharp⟩
    have hseen' : (g :: seen).reverse = .char '#' :: (inside ++ [g]) := by
      rw [List.reverse_cons, hseen]
      rfl
    have ht := @Trail.blockComment before _ _ _ (g == .char '|') hg hseen' hmore (by simp)
    rw [List.reverse_cons, ← List.append_assoc] at ht
    exact accounts_of_trail hlay ht depth

end Modes

/-- One more glyph is accounted for in its turn. -/
theorem accounts_step {g : Glyph} (h : Accounts r gs s) (hl : Legible (gs ++ [g])) :
    Accounts r (gs ++ [g]) (step r s g) := by
  by_cases hopen : Open s.mode ∧ isDelimiter g = true
  · rw [step_delimiter hopen.2 hopen.1]
    exact accounts_startToken (accounts_settled h hopen.1 hl.left) (mode_settled hopen.1) hl
  have hword (ho : Open s.mode) : isDelimiter g = false := by
    simpa using fun hd => hopen ⟨ho, hd⟩
  obtain ⟨place, depth, mode, done⟩ := s
  obtain ⟨hplace, before, trail, rfl, hlay, htrail⟩ := id h
  obtain rfl : place = past (before ++ trail) := hplace
  cases htrail with
  | idle hg => exact accounts_startToken h rfl hl
  | hash hg => exact accounts_step_hash hlay hg (hword (.hash _)) depth
  | word hg hw hh => exact accounts_step_word hlay hg hw hh (hword (.word _ _)) depth
  | string hg hs => exact accounts_step_string hlay hg hs hl depth
  | lineComment hg hc => exact accounts_step_lineComment hlay hg hc depth
  | blockComment hg hseen hi hbar => exact accounts_step_blockComment hlay hg hseen hi hbar depth

/-- Every glyph is accounted for. -/
theorem accounts_run (r : Reader) (gs : List Glyph) (hl : Legible gs) :
    Accounts r gs (run r initial gs) := by
  induction gs using List.reverseRecOn with
  | nil => exact accounts_initial r
  | append_singleton gs g ih =>
    rw [run_append]
    exact accounts_step (ih hl.left) hl

/-- At the end of the source, what is left over is a gap or an invalid token. -/
theorem layout_finish (h : Accounts r gs s) (hl : Legible gs) :
    ∃ before last, gs = before ++ last ∧ Layout r (Glyph.bytes before) (finish r s) ∧
      LastGap last := by
  by_cases hopen : Open s.mode
  · obtain ⟨-, before, gap, hgs, hlay, htrail⟩ := accounts_settled h hopen hl
    rw [mode_settled hopen] at htrail
    cases htrail with
    | idle hg =>
      refine ⟨before, gap, hgs, ?_, Or.inl hg⟩
      rwa [finish_open hopen]
  obtain ⟨place, depth, mode, done⟩ := s
  obtain ⟨-, before, trail, rfl, hlay, htrail⟩ := h
  -- an invalid token reaches to the end
  have hinvalid {gap seen : List Glyph} (hl : Legible (before ++ (gap ++ seen.reverse)))
      (hg : Gap gap) (hu : Unread seen.reverse) :
      Layout r (Glyph.bytes (before ++ (gap ++ seen.reverse)))
        (r.bareToken .invalid (past (before ++ gap)) seen :: done).reverse := by
    rw [List.reverse_cons]
    exact hlay.push hl hg (.invalid _ hu) rfl
  cases htrail with
  | idle hg => exact absurd .idle hopen
  | hash hg => exact absurd (.hash _) hopen
  | word hg hw hh => exact absurd (.word _ _) hopen
  | string hg hs =>
    exact ⟨_, [], (List.append_nil _).symm, hinvalid hl hg (.string hs), Or.inl .nil⟩
  | lineComment hg hc => exact ⟨before, _, rfl, hlay, Or.inr ⟨_, _, rfl, hg, hc⟩⟩
  | blockComment hg hseen hi hbar =>
    refine ⟨_, [], (List.append_nil _).symm, hinvalid hl hg ?_, Or.inl .nil⟩
    rw [hseen]
    exact .comment hi

/-- The tokens of a source are laid out in the text up to the last of them. -/
theorem exists_layout (r : Reader) (source : Text) :
    ∃ before, Layout r before (r.tokens source) := by
  have hl := Text.legible_glyphs source
  obtain ⟨before, last, -, hlay, -⟩ := layout_finish (accounts_run r source.glyphs hl) hl
  exact ⟨_, hlay⟩

theorem spelled_tokens (r : Reader) (source : Text) :
    ∀ t ∈ r.tokens source, Spelled r t.text.glyphs t := by
  obtain ⟨before, hlay⟩ := exists_layout r source
  exact hlay.spelled_of_mem

/-- Every token of a source has a position. -/
theorem known_tokens (r : Reader) (source : Text) :
    ∀ t ∈ r.tokens source, t.pos.isUnknown = false := by
  obtain ⟨before, hlay⟩ := exists_layout r source
  exact hlay.known_of_mem

/-- **Reading loses nothing, and positions are right.** A source is gaps and tokens in turn and a
last gap. -/
theorem tokens_laid_out (r : Reader) (source : Text) :
    ∃ before last, source = before ++ last ∧ Layout r before (r.tokens source) ∧
      LastGap last.glyphs := by
  have hl := Text.legible_glyphs source
  obtain ⟨before, last, hgs, hlay, hlast⟩ := layout_finish (accounts_run r source.glyphs hl) hl
  refine ⟨Glyph.bytes before, Glyph.bytes last, ?_, hlay, ?_⟩
  · rw [← Glyph.bytes_append, ← hgs, Text.bytes_glyphs]
  · rw [hgs] at hl
    rwa [hl.right]

end Reader

end LittleLisp
