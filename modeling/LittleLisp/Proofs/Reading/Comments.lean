/-
# Comments

What may stand between two tokens is passed over: after it the reader is where it was, only further
on. So what follows a comment at the start of a source is read as a source of its own, with its
positions moved by the extent of the comment.

A line comment ends with its line. A block comment ends with the first `|#` in it, and that may
share its bar with the opening `#|`: `#|#` is a whole comment. So a body in which `|#` does not
occur is passed over unless it starts with `#`; if it does, the comment is over after that `#`, and
the rest of the body is read.

Key definitions: `Position.behind`, `Token.behind`.
Key theorems: `Reader.run_gap`, `Reader.tokens_gap`, `Reader.comments_passed_over`.
-/
import LittleLisp.Proofs.Reading.Lines

namespace LittleLisp

/-- The position in a text that follows another one. What is not on its first line is only moved
down. -/
def Position.behind (before : Text) (p : Position) : Position :=
  ⟨p.module, p.line + before.count 10,
    if p.line = 1 then p.column + before.lastLine.runeCount else p.column⟩

/-- The token in a text that follows another one. -/
def Token.behind (before : Text) (t : Token) : Token := t.moved (Position.behind before)

/-- Behind whole lines, a token is only further down. -/
theorem Token.behind_line (line : Text) (t : Token) :
    t.behind (line ++ "\n") = t.lower (1 + line.count 10) := by
  have hlast : (line ++ "\n" : Text).lastLine = [] := List.rtakeWhile_concat_neg _ _ _ (by decide)
  have hcount : (line ++ "\n" : Text).count 10 = 1 + line.count 10 := by
    rw [List.count_append, Nat.add_comm]
    rfl
  simp [Token.behind, Token.moved, Token.lower, Position.behind, hlast, hcount, Text.runeCount,
    Text.glyphs]

namespace Reader

variable {r : Reader}

/-! ### What follows a text -/

/-- The place `k` lines further down, or on the first line `c` columns further on as well. -/
def Place.behind (k c : Nat) (p : Place) : Place :=
  ⟨p.line + k, if p.line = 1 then p.column + c else p.column⟩

/-- Moving behind a text goes with whatever the reader does, since lines are counted from one. -/
theorem moves_behind (r : Reader) (before : Text) :
    Moves r (Place.behind (before.count 10) before.lastLine.runeCount) (Position.behind before)
      fun p => 1 ≤ p.line where
  holds {p} g hp := by
    by_cases hg : g = .char '\n'
    · subst hg
      exact Nat.le_succ_of_le hp
    · rwa [after_of_ne p hg]
  after {p} g hp := by
    by_cases hg : g = .char '\n'
    · subst hg
      have hline : p.line ≠ 0 := by omega
      simp [Place.after, Place.behind, hline, Nat.add_right_comm]
    · rw [after_of_ne _ hg, after_of_ne _ hg]
      by_cases hline : p.line = 1
      · simp [Place.behind, hline, Nat.add_right_comm]
      · simp [Place.behind, hline]
  position p := by
    have hline : (p.line : Int) = 1 ↔ p.line = 1 := by omega
    by_cases hfirst : p.line = 1
    · simp [Reader.position, Position.behind, Place.behind, hfirst]
    · simp [Reader.position, Position.behind, Place.behind, hline, hfirst]

/-! ### Gaps -/

variable {s : State}

theorem run_lineComment : ∀ (gs : List Glyph) {s : State}, .char '\n' ∉ gs → s.mode = .lineComment →
    run r s gs = { s with place := gs.foldl Place.after s.place }
  | [], _, _, _ => rfl
  | g :: gs, s, hgs, hs => by
    rw [List.mem_cons, not_or] at hgs
    have hstep : step r s g = { s with place := s.place.after g } := by
      simp [step, hs, Ne.symm hgs.1]
    rw [run_cons, hstep, run_lineComment gs hgs.2 (by exact hs), List.foldl_cons]

/-- As long as it is not closed, a block comment is taken up whole. -/
theorem run_blockInside {inside : List Glyph} (h : BlockInside inside) (hs : s.mode = .idle) :
    run r s (.char '#' :: inside) =
      { s with
        place := (.char '#' :: inside).foldl Place.after s.place
        mode := .blockComment s.place (.char '#' :: inside).reverse
          (inside.getLast? == some (.char '|')) } := by
  have hhash : step r s (.char '#') =
      { s with place := s.place.after (.char '#'), mode := .hash s.place } := by
    simp [step, hs, startToken, Glyph.isBlank, Text.isBlank]
  induction inside using List.reverseRecOn with
  | nil => cases h.starts
  | append_singleton inside g ih =>
    by_cases hnil : inside = []
    · subst hnil
      obtain rfl : g = .char '|' := Option.some.inj h.starts
      rw [List.nil_append, run_cons, hhash]
      rfl
    · have hinside : BlockInside inside := by
        refine ⟨?_, fun hin => h.unclosed (hin.trans (List.prefix_append _ _).isInfix)⟩
        rw [← h.starts, List.head?_append_of_ne_nil _ hnil]
      -- a `#` after a bar would close the comment
      have hclose : ¬ (inside.getLast? = some (.char '|') ∧ g = .char '#') := by
        rintro ⟨hlast, rfl⟩
        obtain ⟨before, rfl⟩ := List.getLast?_eq_some_iff.mp hlast
        exact h.unclosed ⟨before, [], by simp⟩
      rw [← List.cons_append, run_append, ih hinside, run_cons, run_nil, step]
      simp [hclose]

/-- What may stand before a token is passed over. -/
theorem run_gap {gs : List Glyph} (h : Gap gs) :
    ∀ {s : State}, s.mode = .idle → run r s gs = { s with place := gs.foldl Place.after s.place } := by
  induction h with
  | nil =>
    intro s _
    rfl
  | @blank g gs hg _ ih =>
    intro s hs
    have hstep : step r s g = { s with place := s.place.after g } := by
      simp only [step, hs, startToken, beq_iff_eq, Bool.or_eq_true, hg, if_true]
    rw [run_cons, hstep, ih (by exact hs), List.foldl_cons]
  | @line c gs hc _ ih =>
    intro s hs
    obtain ⟨body, rfl, hbody⟩ := hc
    have hstart : step r s (.char ';') =
        { s with place := s.place.after (.char ';'), mode := .lineComment } := by
      simp [step, hs, startToken, Glyph.isBlank, Text.isBlank]
    rw [List.cons_append, run_cons, hstart, run_append, run_lineComment body hbody rfl, run_cons]
    simp only [step, beq_self_eq_true, if_true]
    rw [ih rfl]
    simp [hs]
  | @block c gs hc _ ih =>
    intro s hs
    obtain ⟨inside, rfl, hinside, hlast⟩ := hc
    rw [List.cons_append, ← List.cons_append, run_append, run_append, run_blockInside hinside hs,
      run_cons, run_nil, step]
    simp only [hlast, beq_self_eq_true, Bool.and_self, if_true]
    rw [ih rfl]
    simp [hs]

/-- Where a text ends is where what follows it starts. -/
theorem past_glyphs (t : Text) :
    past t.glyphs = initial.place.behind (t.count 10) t.lastLine.runeCount := by
  have hposition := position_past ⟨[], []⟩ (Text.legible_glyphs t)
  rw [Text.bytes_glyphs] at hposition
  simp only [Reader.position, Position.following, Position.mk.injEq] at hposition
  obtain ⟨-, hline, hcolumn⟩ := hposition
  rw [Place.behind, Place.mk.injEq]
  constructor
  · simp only [initial]
    omega
  · simp only [initial, if_true]
    omega

/-- **What follows a gap is read as a source of its own**, further on. -/
theorem tokens_gap (r : Reader) {gap rest : Text} (h : Gap gap.glyphs)
    (hcut : (gap ++ rest).glyphs = gap.glyphs ++ rest.glyphs) :
    r.tokens (gap ++ rest) = (r.tokens rest).map (Token.behind gap) := by
  have hmoves := moves_behind r gap
  have hstart : run r initial gap.glyphs = initial.moved
      (Place.behind (gap.count 10) gap.lastLine.runeCount) (Position.behind gap) [] := by
    have hplace : gap.glyphs.foldl Place.after initial.place = _ := past_glyphs gap
    rw [run_gap h rfl, hplace]
    rfl
  rw [tokens, hcut, run_append, hstart, run_moved hmoves [] _ (Nat.le_refl 1), finish_moved hmoves]
  rfl

/-! ### Comments -/

/-- Reading can be cut after every byte below 0x80. -/
theorem glyphs_cut {a : UInt8} (ha : a < 0x80) (t u : Text) :
    (t ++ [a] ++ u).glyphs = (t ++ [a]).glyphs ++ u.glyphs := by
  rw [List.append_assoc, List.singleton_append, Text.glyphs_append_ascii ha,
    Text.glyphs_append_ascii ha, List.append_assoc]
  rfl

theorem bytes_infix {gs hs : List Glyph} (h : gs <:+: hs) : Glyph.bytes gs <:+: Glyph.bytes hs := by
  obtain ⟨before, after, rfl⟩ := h
  exact ⟨Glyph.bytes before, Glyph.bytes after, by simp⟩

/-- A line comment with the break that ends it. -/
theorem gap_line {body : Text} (h : 10 ∉ body) : Gap (";" ++ body ++ "\n" : Text).glyphs := by
  have hbreak : .char '\n' ∉ body.glyphs := by
    rw [← List.count_eq_zero, ← count_bytes (Text.legible_glyphs body), Text.bytes_glyphs]
    exact List.count_eq_zero.mpr h
  have hglyphs : (";" ++ body ++ "\n" : Text).glyphs =
      (.char ';' :: body.glyphs) ++ [.char '\n'] := by
    have hcut := Text.glyphs_append_ascii (a := 10) (by decide) (";" ++ body) []
    have hstart := Text.glyphs_ascii (a := 59) (by decide) body
    exact hcut.trans (congrArg (· ++ [Glyph.char '\n']) hstart)
  rw [hglyphs]
  exact .line ⟨body.glyphs, rfl, hbreak⟩ .nil

/-- A block comment that its start does not end. -/
theorem gap_block {body : Text} (h : ¬ ("|#" : Text) <:+: "|" ++ body) :
    Gap ("#|" ++ body ++ "|#" : Text).glyphs := by
  have hopen : BlockInside (.char '|' :: body.glyphs) := by
    refine ⟨rfl, fun hin => h ?_⟩
    have hbytes : ("|#" : Text) <:+: Glyph.bytes (.char '|' :: body.glyphs) := bytes_infix hin
    have hbar : Glyph.bytes (.char '|' :: body.glyphs) = "|" ++ body := by
      rw [Glyph.bytes_cons, Text.bytes_glyphs]
      rfl
    rwa [hbar] at hbytes
  have hinside : BlockInside (.char '|' :: body.glyphs ++ [.char '|']) :=
    hopen.concat fun _ => by decide
  have hstart : ("#|" ++ body : Text).glyphs = .char '#' :: .char '|' :: body.glyphs := by
    have hbar := Text.glyphs_ascii (a := 124) (by decide) body
    exact (Text.glyphs_ascii (a := 35) (by decide) (124 :: body)).trans (congrArg _ hbar)
  have hend : ("#|" ++ body ++ "|#" : Text).glyphs =
      ("#|" ++ body : Text).glyphs ++ [.char '|', .char '#'] :=
    Text.glyphs_append_ascii (a := 124) (by decide) ("#|" ++ body) "#"
  have hglyphs : ("#|" ++ body ++ "|#" : Text).glyphs =
      .char '#' :: (.char '|' :: body.glyphs ++ [.char '|']) ++ [.char '#'] := by
    rw [hend, hstart]
    simp
  have hcomment := Gap.block ⟨_, rfl, hinside, List.getLast?_concat⟩ .nil
  rwa [List.append_nil, ← hglyphs] at hcomment

/-- **Comments are passed over.** After a block comment, which ends with the first `|#` and may share
the bar of that with its start, and after a line comment, the source is read as one of its own,
moved by the extent of the comment. -/
theorem comments_passed_over (r : Reader) (body rest : Text) :
    (¬ ("|#" : Text) <:+: body →
      (body.head? ≠ some 35 →
        r.tokens ("#|" ++ body ++ "|#" ++ rest) =
          (r.tokens rest).map (Token.behind ("#|" ++ body ++ "|#"))) ∧
      (body.head? = some 35 →
        r.tokens ("#|" ++ body ++ "|#" ++ rest) =
          (r.tokens (body.tail ++ "|#" ++ rest)).map (Token.behind "#|#"))) ∧
    (10 ∉ body →
      r.tokens (";" ++ body ++ "\n" ++ rest) = (r.tokens rest).map (Token.lower 1)) := by
  refine ⟨fun hclosed => ⟨fun hhead => ?_, fun hhead => ?_⟩, fun hbody => ?_⟩
  · have hopen : ¬ ("|#" : Text) <:+: "|" ++ body := by
      intro hin
      rcases List.infix_cons_iff.mp hin with ⟨after, hprefix⟩ | hin
      · obtain rfl : 35 :: after = body := List.cons.inj hprefix |>.2
        exact hhead rfl
      · exact hclosed hin
    have hcut := glyphs_cut (a := 35) (by decide) ("#|" ++ body ++ "|") rest
    have hend : "#|" ++ body ++ "|" ++ ([35] : Text) = "#|" ++ body ++ "|#" :=
      List.append_assoc _ _ _
    rw [hend] at hcut
    exact tokens_gap r (gap_block hopen) hcut
  · obtain ⟨body, rfl⟩ := List.head?_eq_some_iff.mp hhead
    have hshort : Gap ("#|#" : Text).glyphs :=
      .block ⟨[.char '|'], rfl, ⟨rfl, by decide⟩, rfl⟩ .nil
    have hsplit : Text.ofString "#|" ++ (35 :: body) ++ "|#" ++ rest =
        "#|#" ++ (body ++ "|#" ++ rest) := by
      rw [List.append_assoc, List.append_assoc, List.append_assoc]
      rfl
    rw [hsplit, List.tail_cons]
    exact tokens_gap r hshort (glyphs_cut (a := 35) (by decide) "#|" _)
  · have hlower : Token.behind (";" ++ body ++ "\n") = Token.lower 1 := by
      funext t
      have hcount : (";" ++ body : Text).count 10 = 0 := by
        rw [List.count_eq_zero]
        exact List.not_mem_cons_of_ne_of_not_mem (by decide) hbody
      rw [Token.behind_line, hcount]
    rw [← hlower]
    exact tokens_gap r (gap_line hbody) (glyphs_cut (a := 10) (by decide) (";" ++ body) rest)

/-- A comment of bars, a line break and brackets, one that is over at its second `#`, and one to the
end of a line that holds the start of another. -/
theorem comments_passed_over_bars :
    let r : Reader := ⟨"m", ":"⟩
    let rest : Text := "(f \"x\")"
    let bars : Text := "|;\n(é#|"
    let sharp : Text := "# x|"
    let start : Text := "#|"
    (¬ ("|#" : Text) <:+: bars ∧ bars.head? ≠ some 35 ∧
      r.tokens ("#|" ++ bars ++ "|#" ++ rest) =
        (r.tokens rest).map (Token.behind ("#|" ++ bars ++ "|#"))) ∧
    (¬ ("|#" : Text) <:+: sharp ∧ sharp.head? = some 35 ∧
      r.tokens ("#|" ++ sharp ++ "|#" ++ rest) =
        (r.tokens (sharp.tail ++ "|#" ++ rest)).map (Token.behind "#|#")) ∧
    10 ∉ start ∧
      r.tokens (";" ++ start ++ "\n" ++ rest) = (r.tokens rest).map (Token.lower 1) := by
  intro r rest bars sharp start
  have hbars : ¬ ("|#" : Text) <:+: bars := by decide +kernel
  have hplain : bars.head? ≠ some 35 := by decide +kernel
  have hsharp : ¬ ("|#" : Text) <:+: sharp := by decide +kernel
  have hstart : 10 ∉ start := by decide +kernel
  refine ⟨⟨hbars, hplain, ?_⟩, ⟨hsharp, rfl, ?_⟩, hstart, ?_⟩
  · exact ((comments_passed_over r bars rest).1 hbars).1 hplain
  · exact ((comments_passed_over r sharp rest).1 hsharp).2 rfl
  · exact (comments_passed_over r start rest).2 hstart

end Reader

end LittleLisp
