/-
# Dialogues

A dialogue takes in lines until they leave no list open. So the lines fall into groups, each of
them as short as it can be, and a rest that the end of the input cuts off. Each group, its lines
joined again, is evaluated as a source of its own, and the dialogue keeps a record of the trees that
it evaluates. As long as no token is invalid, these are the trees of a file with the same lines: a
text that leaves neither a list nor a string nor a comment open ends between two trees, and what
follows it is read as from the start of a source, further down.

Key definitions: `Text.below`, `Dialogue.Finished`, `Dialogue.Unfinished`, `Dialogue.Split`,
`Dialogue.prompts`, `Dialogue.hold`.
Key theorems: `Reader.run_line`, `Forest.build_stacked`, `Dialogue.exists_split`,
`Dialogue.converse_eq_hold`, `Dialogue.evaluated_hold`, `Dialogue.converse_evaluates_file`.
-/
import LittleLisp.Proofs.Loading
import LittleLisp.Proofs.Reading.Comments
import LittleLisp.Proofs.Reading.RoundTrip

namespace LittleLisp

namespace Text

/-- The lines as one text. -/
def ofLines (lines : List Text) : Text := join "\n" lines

theorem ofLines_nil : ofLines [] = [] := rfl

theorem ofLines_singleton (t : Text) : ofLines [t] = t := by simp [ofLines, join]

theorem ofLines_cons {ts : List Text} (t : Text) (h : ts ≠ []) :
    ofLines (t :: ts) = t ++ 10 :: ofLines ts := by
  obtain ⟨u, us, rfl⟩ := List.exists_cons_of_ne_nil h
  have hbreak : ("\n" : Text) = [10] := rfl
  simp [ofLines, join, hbreak]

theorem ofLines_append : ∀ {ts us : List Text}, ts ≠ [] → us ≠ [] →
    ofLines (ts ++ us) = ofLines ts ++ 10 :: ofLines us
  | [t], us, _, hus => by rw [List.singleton_append, ofLines_cons t hus, ofLines_singleton]
  | t :: u :: ts, us, _, hus => by
    have hne : u :: ts ≠ [] := List.cons_ne_nil u ts
    rw [List.cons_append, ofLines_cons t (by simp), ofLines_append hne hus, ofLines_cons t hne,
      List.append_assoc, List.cons_append]

/-- Joining the groups of some lines and then the texts of the groups is joining the lines. -/
theorem ofLines_flatten : ∀ {groups : List (List Text)}, (∀ g ∈ groups, g ≠ []) →
    ofLines (groups.map ofLines) = ofLines groups.flatten
  | [], _ => rfl
  | [g], _ => by
    rw [List.map_singleton, ofLines_singleton, List.flatten_singleton]
  | g :: g' :: groups, h => by
    rw [List.forall_mem_cons] at h
    have hrest : (g' :: groups).flatten ≠ [] := by
      rw [List.flatten_cons]
      exact List.append_ne_nil_of_left_ne_nil (h.2 g' List.mem_cons_self) _
    have hflat : (g :: g' :: groups).flatten = g ++ (g' :: groups).flatten := rfl
    rw [List.map_cons, ofLines_cons _ (by simp), ofLines_flatten h.2, hflat,
      ofLines_append h.1 hrest]

/-- How far down the second of two texts starts that stand one below the other. -/
def height (t : Text) : Nat := 1 + t.count 10

/-- What some texts hold that stand one below the other, the first one `k` lines down. -/
def below {α : Type} (lower : Nat → α → α) (content : Text → List α) : Nat → List Text → List α
  | _, [] => []
  | k, t :: ts => (content t).map (lower k) ++ below lower content (k + t.height) ts

end Text

/-! ### Texts one below the other -/

namespace Reader

variable {r : Reader}

/-- A text that reads without an invalid token and leaves no list open. -/
structure Closed (r : Reader) (t : Text) : Prop where
  valid : ∀ token ∈ r.tokens t, token.type ≠ .invalid
  closed : Token.openLists (r.tokens t) = 0

theorem openLists_tokens (r : Reader) (t : Text) :
    Token.openLists (r.tokens t) = (run r initial t.glyphs).depth :=
  (balanced_finish (balanced_run t.glyphs balanced_initial)).1

/-- After a closed text and a line break the reader is where it starts, further down. -/
theorem run_line {t : Text} (h : Closed r t) (k : Nat) (before : List Token) :
    run r (initial.lower k before) (t.glyphs ++ [.char '\n']) =
      initial.lower (k + t.height) (((r.tokens t).map (Token.lower k)).reverse ++ before) := by
  have hlegible := Text.legible_glyphs t
  set s := run r initial t.glyphs with hs
  have hline : s.place.line = t.height := by
    rw [hs, (accounts_run r t.glyphs hlegible).place, past_eq, ← count_bytes hlegible,
      Text.bytes_glyphs, Text.height]
  have hdepth : s.depth = 0 := by
    have hopen := openLists_tokens r t
    rw [h.closed, ← hs] at hopen
    omega
  have hbreak : step r s (.char '\n') = ⟨⟨t.height + 1, 1⟩, 0, .idle, (r.tokens t).reverse⟩ := by
    rw [step_newline h.valid, hdepth, ← hline]
    rfl
  rw [run_append, run_lower, ← hs, run_cons, run_nil, step_lower, hbreak]
  simp [State.lower, Place.lower, Mode.lower, initial, List.map_reverse]
  omega

/-- Closed texts one below the other are read one after the other, each as from its first line. -/
theorem finish_stacked : ∀ {ts : List Text}, (∀ t ∈ ts, Closed r t) →
    ∀ (k : Nat) (before : List Token),
      finish r (run r (initial.lower k before) (Text.ofLines ts).glyphs) =
        before.reverse ++ Text.below Token.lower r.tokens k ts
  | [], _, k, before => by
    have hnone : (Text.ofLines []).glyphs = [] := rfl
    rw [hnone, run_nil, finish_lower]
    rfl
  | [t], _, k, before => by
    rw [Text.ofLines_singleton, run_lower, finish_lower, Text.below, Text.below, List.append_nil]
    rfl
  | t :: u :: ts, h, k, before => by
    rw [List.forall_mem_cons] at h
    have hglyphs : (Text.ofLines (t :: u :: ts)).glyphs =
        (t.glyphs ++ [.char '\n']) ++ (Text.ofLines (u :: ts)).glyphs := by
      rw [Text.ofLines_cons t (by simp), Text.glyphs_append_ascii (by decide), List.append_cons]
      rfl
    rw [hglyphs, run_append, run_line h.1, finish_stacked h.2, Text.below.eq_2 _ _ k,
      List.reverse_append, List.reverse_reverse, List.append_assoc]

theorem tokens_stacked {ts : List Text} (h : ∀ t ∈ ts, Closed r t) :
    r.tokens (Text.ofLines ts) = Text.below Token.lower r.tokens 0 ts := finish_stacked h 0 []

theorem gap_of_blank : ∀ {gs : List Glyph}, (∀ g ∈ gs, g.isBlank = true) → Gap gs
  | [], _ => .nil
  | g :: gs, h => by
    rw [List.forall_mem_cons] at h
    exact .blank (Or.inl h.1) (gap_of_blank h.2)

/-- A text of white space has no tokens. -/
theorem tokens_blank {t : Text} (h : t.trim = []) : r.tokens t = [] := by
  have hrest : ∀ g ∈ (t.glyphs.dropWhile Glyph.isBlank).reverse, g.isBlank = true := by
    rw [← List.dropWhile_eq_nil_iff, ← List.reverse_eq_nil_iff]
    by_contra hne
    exact bytes_ne_nil hne h
  have hblank : ∀ g ∈ t.glyphs, g.isBlank = true := by
    intro g hg
    rw [← List.takeWhile_append_dropWhile (p := Glyph.isBlank) (l := t.glyphs),
      List.mem_append] at hg
    rcases hg with hg | hg
    · exact List.mem_takeWhile_imp hg
    · exact hrest g (List.mem_reverse.mpr hg)
  rw [tokens, run_gap (gap_of_blank hblank) rfl]
  rfl

end Reader

namespace Forest

variable {m : Text}

/-! ### Forests one after the other -/

/-- A partly built forest after the trees of another. -/
def Stack.after (forest : Forest) (s : Stack) : Stack := ⟨s.inner, s.top ++ forest.reverse⟩

theorem after_add (forest : Forest) (s : Stack) (n : Node) :
    (s.add n).after forest = (s.after forest).add n := by
  obtain ⟨inner, top⟩ := s
  cases inner <;> rfl

theorem after_close (forest : Forest) (s : Stack) :
    (s.after forest).close? = s.close?.map (Stack.after forest) := by
  obtain ⟨inner, top⟩ := s
  cases inner with
  | nil => rfl
  | cons ns outer => exact congrArg some (after_add forest ⟨outer, top⟩ (.form ns.reverse)).symm

/-- Tokens that can be added can be added in any module and after any trees. -/
theorem extend_after (m' : Text) (forest : Forest) : ∀ (ts : List Token) {s s' : Stack},
    extend m s ts = .ok s' → extend m' (s.after forest) ts = .ok (s'.after forest)
  | [], s, s', h => by
    rw [← Except.ok.inj h]
    rfl
  | t :: ts, s, s', h => by
    rcases t.sort_cases with hi | hb | he | hleaf
    · simp [extend_invalid m hi] at h
    · rw [extend_begin m hb] at h
      rw [extend_begin m' hb]
      exact extend_after m' forest ts h
    · cases hclose : s.close? with
      | none => simp [extend_stuck m he hclose] at h
      | some s₁ =>
        have hclose' : (s.after forest).close? = some (s₁.after forest) := by
          rw [after_close, hclose]
          rfl
        rw [extend_end m he hclose] at h
        rw [extend_end m' he hclose']
        exact extend_after m' forest ts h
    · rw [extend_leaf m hleaf] at h
      rw [extend_leaf m' hleaf, ← after_add]
      exact extend_after m' forest ts h

/-- The tokens build the forest in any module and leave no list open. -/
def Yields (ts : List Token) (forest : Forest) : Prop :=
  ∀ m, extend m .empty ts = .ok ⟨[], forest.reverse⟩

theorem Yields.build {ts : List Token} {forest : Forest} (h : Yields ts forest) (m : Text) :
    build m ts = forest := by
  rw [build_of_extend m (h m), Stack.forest, List.reverse_reverse]

theorem yields_nil : Yields [] [] := fun _ => rfl

theorem Yields.append {ts us : List Token} {f g : Forest} (hf : Yields ts f) (hg : Yields us g) :
    Yields (ts ++ us) (f ++ g) := by
  intro m
  have hus := extend_after m f us (hg m)
  rw [extend_append, hf m, List.reverse_append]
  exact hus

theorem Yields.relabel {ts : List Token} {forest : Forest} (h : Yields ts forest)
    {f : Token → Token} (hf : ∀ t, (f t).type = t.type) :
    Yields (ts.map f) (forest.map (Node.relabel f)) := by
  intro m
  have hrelabel : (extend m .empty (ts.map f)).toOption =
      some ⟨[], (forest.map (Node.relabel f)).reverse⟩ := by
    have hmap := extend_relabel m hf ts .empty
    rw [h m] at hmap
    rw [← List.map_reverse, ← Node.relabelAll_eq_map]
    exact hmap
  cases hs : extend m .empty (ts.map f) with
  | error fault => simp [hs, Except.toOption] at hrelabel
  | ok s => simpa [hs, Except.toOption] using hrelabel

/-- A closed text yields what it is parsed as. -/
theorem yields_closed {r : Reader} {t : Text} (h : r.Closed t) (m : Text) :
    Yields (r.tokens t) (build m (r.tokens t)) := by
  obtain ⟨s, hs, hbuilt⟩ := extend_of_unoffending m Token.roundOpening Token.roundClosing
    (unoffending_tokens h.valid)
  obtain ⟨inner, top⟩ := s
  obtain rfl : inner = [] := by
    have hdepth := hbuilt.depth
    rw [h.closed] at hdepth
    exact List.length_eq_zero_iff.mp (Int.ofNat_inj.mp hdepth.symm)
  intro m'
  rw [build_of_extend m hs, Stack.forest, List.reverse_reverse]
  simpa [Stack.after] using extend_after m' [] _ hs

/-- The trees of closed texts one below the other. -/
theorem build_stacked {r : Reader} {ts : List Text} (h : ∀ t ∈ ts, r.Closed t) (m : Text) :
    build m (r.tokens (Text.ofLines ts)) =
      Text.below (fun k => Node.relabel (Token.lower k)) (fun t => build m (r.tokens t)) 0 ts := by
  rw [Reader.tokens_stacked h]
  have hyields : ∀ (ts : List Text) (k : Nat), (∀ t ∈ ts, r.Closed t) →
      Yields (Text.below Token.lower r.tokens k ts)
        (Text.below (fun k => Node.relabel (Token.lower k)) (fun t => build m (r.tokens t))
          k ts) := by
    intro ts
    induction ts with
    | nil => exact fun _ _ => yields_nil
    | cons t ts ih =>
      intro k h
      rw [List.forall_mem_cons] at h
      have hlowered := (yields_closed h.1 m).relabel (f := Token.lower k) fun _ => rfl
      exact hlowered.append (ih _ h.2)
  exact (hyields ts 0 h).build m

end Forest

/-! ### Lines that belong together -/

namespace Dialogue

open Text (ofLines)

variable {r : Reader} {lines rest held g : List Text} {groups : List (List Text)} {d : Dialogue}

/-- Lines that leave a list open from the first one on, however many of them are taken in. -/
def Unfinished (r : Reader) (g : List Text) : Prop :=
  ∀ p, p <+: g → p ≠ [] → isOpen r (ofLines p) = true

/-- The shortest run of lines, at least one, that leaves no list open. -/
structure Finished (r : Reader) (g : List Text) : Prop where
  ne_nil : g ≠ []
  closed : isOpen r (ofLines g) = false
  shortest : ∀ p, p <+: g → p ≠ [] → p ≠ g → isOpen r (ofLines p) = true

/-- The lines are those of the groups and then the rest. Each group is an input, and the rest is
cut off by the end of the lines. -/
structure Split (r : Reader) (lines : List Text) (groups : List (List Text)) (rest : List Text) :
    Prop where
  lines_eq : lines = groups.flatten ++ rest
  finished : ∀ g ∈ groups, Finished r g
  unfinished : Unfinished r rest

instance (r : Reader) : DecidablePred (Unfinished r) := fun g =>
  decidable_of_iff (∀ p ∈ g.inits, p ≠ [] → isOpen r (ofLines p) = true) (by
    simp only [List.mem_inits, Unfinished])

instance (r : Reader) : DecidablePred (Finished r) := fun g =>
  decidable_of_iff (g ≠ [] ∧ isOpen r (ofLines g) = false ∧
      ∀ p ∈ g.inits, p ≠ [] → p ≠ g → isOpen r (ofLines p) = true) (by
    simp only [List.mem_inits]
    exact ⟨fun ⟨h₁, h₂, h₃⟩ => ⟨h₁, h₂, h₃⟩, fun h => ⟨h.ne_nil, h.closed, h.shortest⟩⟩)

instance (r : Reader) (lines : List Text) (groups : List (List Text)) (rest : List Text) :
    Decidable (Split r lines groups rest) :=
  decidable_of_iff (lines = groups.flatten ++ rest ∧ (∀ g ∈ groups, Finished r g) ∧
      Unfinished r rest)
    ⟨fun ⟨h₁, h₂, h₃⟩ => ⟨h₁, h₂, h₃⟩, fun h => ⟨h.lines_eq, h.finished, h.unfinished⟩⟩

theorem isOpen_nil (r : Reader) : isOpen r [] = false := rfl

theorem unfinished_nil (r : Reader) : Unfinished r [] :=
  fun _ hp hne => absurd (List.prefix_nil.mp hp) hne

theorem Unfinished.concat (h : Unfinished r g) {line : Text}
    (hopen : isOpen r (ofLines (g ++ [line])) = true) : Unfinished r (g ++ [line]) := by
  intro p hp hne
  rcases List.prefix_concat_iff.mp hp with rfl | hp
  · exact hopen
  · exact h p hp hne

theorem Unfinished.left (h : Unfinished r (held ++ g)) : Unfinished r held :=
  fun p hp => h p (hp.trans (List.prefix_append held g))

theorem Unfinished.finish (h : Unfinished r g) {line : Text}
    (hclosed : isOpen r (ofLines (g ++ [line])) = false) : Finished r (g ++ [line]) := by
  refine ⟨by simp, hclosed, fun p hp hne hshort => ?_⟩
  rcases List.prefix_concat_iff.mp hp with rfl | hp
  · exact absurd rfl hshort
  · exact h p hp hne

/-- Without its last line, an input is unfinished. -/
theorem Finished.exists_concat (h : Finished r g) :
    ∃ init line, g = init ++ [line] ∧ Unfinished r init := by
  obtain ⟨init, line, rfl⟩ := (List.eq_nil_or_concat' g).resolve_left h.ne_nil
  refine ⟨init, line, rfl, fun p hp hne => ?_⟩
  refine h.shortest p (hp.trans (List.prefix_append init [line])) hne ?_
  rintro rfl
  have hlength := hp.length_le
  rw [List.length_append, List.length_singleton] at hlength
  omega

/-- Every list of lines can be split. -/
theorem exists_split (r : Reader) (lines : List Text) :
    ∃ groups rest, Split r lines groups rest := by
  induction lines using List.reverseRecOn with
  | nil => exact ⟨[], [], rfl, nofun, unfinished_nil r⟩
  | append_singleton lines line ih =>
    obtain ⟨groups, rest, rfl, hfinished, hunfinished⟩ := ih
    cases hopen : isOpen r (ofLines (rest ++ [line])) with
    | true =>
      exact ⟨groups, rest ++ [line], by rw [List.append_assoc], hfinished, hunfinished.concat hopen⟩
    | false =>
      refine ⟨groups ++ [rest ++ [line]], [], by simp, ?_, unfinished_nil r⟩
      intro g hg
      rcases List.mem_append.mp hg with hg | hg
      · exact hfinished g hg
      · rw [List.mem_singleton.mp hg]
        exact hunfinished.finish hopen

/-- Lines that leave a list open make no empty text, so the next one goes on a line of its own. -/
theorem addLine_ofLines (h : Unfinished r held) (line : Text) :
    addLine (ofLines held) line = ofLines (held ++ [line]) := by
  by_cases hheld : held = []
  · rw [hheld, List.nil_append, Text.ofLines_singleton, Text.ofLines_nil, addLine, if_pos rfl]
  · have hne : ofLines held ≠ [] := by
      intro hnil
      have hopen := h held List.prefix_rfl hheld
      rw [hnil, isOpen_nil] at hopen
      exact Bool.false_ne_true hopen
    rw [Text.ofLines_append hheld (List.cons_ne_nil line []), Text.ofLines_singleton, addLine,
      if_neg hne]
    simp [Text.concat]
    rfl

/-! ### The dialogue, input by input -/

/-- A dialogue that has shown some further texts. -/
def shown (texts : List Text) (d : Dialogue) : Dialogue :=
  { d with session.store.host.written := texts.reverse ++ d.session.store.host.written }

theorem shown_shown (ts us : List Text) (d : Dialogue) :
    (d.shown ts).shown us = d.shown (ts ++ us) := by
  rw [shown, shown, shown, List.reverse_append, List.append_assoc]

/-- What asks for the next line of an input that has some lines already. -/
def promptAfter (held : List Text) : Text := if ofLines held = [] then "> " else ". "

/-- The prompts for the lines of an input, each of them after the lines before. -/
def prompts (g : List Text) : List Text :=
  (List.range g.length).map fun i => promptAfter (g.take i)

theorem prompts_concat (g : List Text) (line : Text) :
    prompts (g ++ [line]) = prompts g ++ [promptAfter g] := by
  have hbefore : ∀ i ∈ List.range g.length,
      promptAfter ((g ++ [line]).take i) = promptAfter (g.take i) := by
    intro i hi
    rw [List.take_append_of_le_length (List.mem_range.mp hi).le]
  rw [prompts, List.length_append, List.length_singleton, List.range_succ, List.map_append,
    List.map_congr_left hbefore, List.map_singleton, List.take_left]
  rfl

/-- The dialogue whose lines fall into inputs and a rest. Each input is asked for line by line. A
blank one is passed over and `:quit` is the end; of any other the trees are recorded and evaluated,
and each value is shown on a line of its own. Of the rest nothing but the prompts is left. -/
def hold : List (List Text) → List Text → Dialogue → Dialogue × Stage
  | [], rest, d =>
    ({ d.shown (prompts rest ++ [promptAfter rest, "\n"]) with pending := ofLines rest }, .over)
  | g :: groups, rest, d =>
    let d := d.shown (prompts g)
    let text := ofLines g
    if text.trim = [] then hold groups rest d
    else if text.trim = ":quit" then (d, .over)
    else
      let trees := d.session.parse text
      let d := { d with
        history := d.history.add (oneLine text), evaluated := d.evaluated ++ trees }
      match d.session.evalForest trees with
      | none => (d, .stuck)
      | some (vs, session) =>
        let answers := vs.map fun v => v.shownInside session.legend ++ ("\n" : Text)
        hold groups rest ({ d with session }.shown [Text.concat answers])

/-- Lines that do not finish an input are asked for and kept. -/
theorem converse_unfinished (hpending : d.pending = []) (lines g : List Text)
    (h : Unfinished d.session.reader g) :
    converse (g ++ lines) d = converse lines { d.shown (prompts g) with pending := ofLines g } := by
  -- one line after the other, each of them asked for with those before it pending
  induction g using List.reverseRecOn generalizing lines with
  | nil =>
    obtain ⟨session, history, pending, evaluated⟩ := d
    obtain rfl : pending = [] := hpending
    rfl
  | append_singleton g line ih =>
    have hopen : isOpen d.session.reader (ofLines (g ++ [line])) = true :=
      h _ List.prefix_rfl (by simp)
    set d' : Dialogue := { d.shown (prompts g) with pending := ofLines g } with hd'
    have hfeed : (d'.say d'.prompt).feed line =
        ({ d.shown (prompts (g ++ [line])) with pending := ofLines (g ++ [line]) },
          .waiting) := by
      have hinput : addLine (d'.say d'.prompt).pending line = ofLines (g ++ [line]) :=
        addLine_ofLines h.left line
      rw [feed, hinput, prompts_concat, ← shown_shown]
      exact if_pos hopen
    rw [List.append_assoc, List.singleton_append, ih (line :: lines) h.left, converse, hfeed]

/-- The lines of an input are asked for and taken together. -/
theorem converse_finished (hpending : d.pending = []) (lines : List Text)
    (h : Finished d.session.reader g) {d' : Dialogue} {stage : Stage}
    (htake : (d.shown (prompts g)).take (ofLines g) = (d', stage)) :
    converse (g ++ lines) d = if stage = .waiting then converse lines d' else (d', stage) := by
  obtain ⟨init, line, rfl, hinit⟩ := h.exists_concat
  set before : Dialogue := { d.shown (prompts init) with pending := ofLines init } with hbefore
  have hfeed : (before.say before.prompt).feed line = (d', stage) := by
    have hinput : addLine (before.say before.prompt).pending line = ofLines (init ++ [line]) :=
      addLine_ofLines hinit line
    have hsame : { before.say before.prompt with pending := [] } =
        d.shown (prompts (init ++ [line])) := by
      obtain ⟨session, history, pending, evaluated⟩ := d
      obtain rfl : pending = [] := hpending
      rw [prompts_concat, ← shown_shown]
      rfl
    rw [feed, hinput, ← htake, ← hsame]
    exact if_neg (Bool.eq_false_iff.mp h.closed)
  rw [List.append_assoc, converse_unfinished hpending _ init hinit, List.singleton_append, converse,
    hfeed]
  cases stage <;> rfl

/-- At the end of the lines, what is unfinished is dropped. -/
theorem converse_rest (hpending : d.pending = []) (h : Unfinished d.session.reader rest) :
    converse rest d = hold [] rest d := by
  have hopen := converse_unfinished hpending [] rest h
  rw [List.append_nil] at hopen
  rw [hopen, hold, List.append_cons, ← shown_shown, ← shown_shown]
  rfl

theorem reader_evalForest {s s' : Console.ConsoleSession} {forest : Forest} {vs : List Value}
    (h : s.evalForest forest = some (vs, s')) : s'.reader = s.reader := by
  obtain ⟨store, -, rfl⟩ := Session.evalForest_eq_some.mp h
  rfl

/-- **A dialogue goes input by input.** -/
theorem converse_eq_hold : ∀ (groups : List (List Text)) {lines : List Text} {d : Dialogue},
    Split d.session.reader lines groups rest → d.pending = [] →
      converse lines d = hold groups rest d
  | [], lines, d, h, hpending => by
    have hlines : lines = rest := h.lines_eq
    rw [hlines]
    exact converse_rest hpending h.unfinished
  | g :: groups, lines, d, ⟨hlines, hfinished, hrest⟩, hpending => by
    rw [List.forall_mem_cons] at hfinished
    have hlines : lines = g ++ (groups.flatten ++ rest) := by
      rw [hlines, List.flatten_cons, List.append_assoc]
    have ih {d' : Dialogue} (hreader : d'.session.reader = d.session.reader)
        (hpending : d'.pending = []) :
        converse (groups.flatten ++ rest) d' = hold groups rest d' := by
      refine converse_eq_hold groups ⟨rfl, ?_, ?_⟩ hpending
      · rw [hreader]
        exact hfinished.2
      · rw [hreader]
        exact hrest
    have hnext {d' : Dialogue} {stage : Stage}
        (htake : (d.shown (prompts g)).take (ofLines g) = (d', stage)) :
        converse (g ++ (groups.flatten ++ rest)) d =
          if stage = .waiting then converse (groups.flatten ++ rest) d' else (d', stage) :=
      converse_finished hpending _ hfinished.1 htake
    rw [hlines, hold]
    dsimp only
    split_ifs with hblank hquit
    · rw [hnext (if_pos hblank), if_pos rfl]
      exact ih rfl hpending
    · rw [hnext ((if_neg hblank).trans (if_pos hquit))]
      rfl
    · have htake : (d.shown (prompts g)).take (ofLines g) =
          (d.shown (prompts g)).evaluate (ofLines g) := (if_neg hblank).trans (if_neg hquit)
      have hcases := Option.eq_none_or_eq_some
        ((d.shown (prompts g)).session.evalForest ((d.shown (prompts g)).session.parse (ofLines g)))
      rcases hcases with heval | ⟨⟨vs, session⟩, heval⟩
      · simp only [evaluate, heval] at htake ⊢
        exact hnext htake
      · have hreader := reader_evalForest heval
        simp only [evaluate, heval] at htake ⊢
        rw [hnext htake, if_pos rfl]
        exact ih hreader hpending

/-- The trees that are evaluated are those of the inputs in order, all of them unless an evaluation
does not come to its end. -/
theorem evaluated_hold (m : Text) (rest : List Text) :
    ∀ {groups : List (List Text)} {d : Dialogue}, d.session.reader = r →
      (∀ g ∈ groups, r.Closed (ofLines g) ∧ (ofLines g).trim ≠ ":quit") →
        ∃ trees, (hold groups rest d).1.evaluated = d.evaluated ++ trees ∧
          trees <+: groups.flatMap (fun g => Forest.build m (r.tokens (ofLines g))) ∧
          ((hold groups rest d).2 ≠ .stuck →
            trees = groups.flatMap fun g => Forest.build m (r.tokens (ofLines g)))
  | [], d, _, _ => ⟨[], (List.append_nil _).symm, List.prefix_rfl, fun _ => rfl⟩
  | g :: groups, d, hreader, h => by
    rw [List.forall_mem_cons] at h
    obtain ⟨⟨hclosed, hquit⟩, hgroups⟩ := h
    rw [List.flatMap_cons, hold]
    dsimp only
    rw [if_neg hquit]
    split_ifs with hblank
    · rw [Reader.tokens_blank hblank]
      exact evaluated_hold m rest (d := d.shown (prompts g)) hreader hgroups
    · have hparse : (d.shown (prompts g)).session.parse (ofLines g) =
          Forest.build m (r.tokens (ofLines g)) := by
        rw [← hreader]
        exact (Forest.yields_closed (hreader ▸ hclosed) m).build _
      rw [hparse]
      set made := Forest.build m (r.tokens (ofLines g)) with hmade
      have hrest : ∀ d' : Dialogue, d'.session.reader = r →
          d'.evaluated = d.evaluated ++ made →
            ∃ trees, (hold groups rest d').1.evaluated = d.evaluated ++ trees ∧
              trees <+: made ++ groups.flatMap (fun g => Forest.build m (r.tokens (ofLines g))) ∧
              ((hold groups rest d').2 ≠ .stuck →
                trees = made ++ groups.flatMap fun g => Forest.build m (r.tokens (ofLines g))) := by
        intro d' hreader' hrecord
        obtain ⟨trees, hrecord', hstart, hall⟩ := evaluated_hold m rest hreader' hgroups
        refine ⟨made ++ trees, ?_, (List.prefix_append_right_inj _).mpr hstart, fun hends => ?_⟩
        · rw [hrecord', hrecord, List.append_assoc]
        · rw [hall hends]
      split
      · exact ⟨made, rfl, List.prefix_append _ _, fun hends => absurd rfl hends⟩
      · rename_i heval
        exact hrest _ ((reader_evalForest heval).trans hreader) rfl

/-- An input without an invalid token is closed: the reader never has fewer than no lists open. -/
theorem Finished.isClosed (h : Finished r g)
    (hvalid : ∀ t ∈ r.tokens (ofLines g), t.type ≠ .invalid) : r.Closed (ofLines g) := by
  refine ⟨hvalid, ?_⟩
  have hopen := h.closed
  have hdepth := Reader.openLists_tokens r (ofLines g)
  rw [isOpen, Token.incomplete, decide_eq_false_iff_not] at hopen
  omega

/-- **A dialogue evaluates what a file would hold.** Any lines fall into groups and a rest: each
group is the shortest run of lines, at least one, that leaves no list open, and the rest, which the
end of the input cuts off, leaves a list open at every line. The dialogue takes the groups one after
the other, each joined by line breaks; joined in the same way, the texts of the groups are the lines
without the rest. In front of a line it writes `. ` if the lines of the group so far make up some
text, and else `> `. If no group has an invalid token or is the one that ends the dialogue, the
trees that it has recorded and evaluated are, in order, those of the groups, as many as it gets to
and all of them if no evaluation is stuck; and these are the trees of all the texts joined, those of
each text as many lines further down as there are before it. -/
theorem converse_evaluates_file (lines : List Text) (d : Dialogue) (hpending : d.pending = []) :
    (∃ groups rest, Split d.session.reader lines groups rest) ∧
    ∀ groups rest, Split d.session.reader lines groups rest →
      converse lines d = hold groups rest d ∧
      ofLines (groups.map ofLines) = ofLines groups.flatten ∧
      ((∀ g ∈ groups, (∀ t ∈ d.session.reader.tokens (ofLines g), t.type ≠ .invalid) ∧
          (ofLines g).trim ≠ ":quit") →
        (∃ trees, (converse lines d).1.evaluated = d.evaluated ++ trees ∧
          trees <+: (groups.map ofLines).flatMap d.session.parse ∧
          ((converse lines d).2 ≠ .stuck →
            trees = (groups.map ofLines).flatMap d.session.parse)) ∧
        d.session.parse (ofLines (groups.map ofLines)) =
          Text.below (fun k => Node.relabel (Token.lower k)) d.session.parse 0
            (groups.map ofLines)) := by
  refine ⟨exists_split d.session.reader lines, fun groups rest hsplit => ?_⟩
  have hhold := converse_eq_hold groups hsplit hpending
  have hjoined := Text.ofLines_flatten fun g hg => (hsplit.finished g hg).ne_nil
  refine ⟨hhold, hjoined, fun h => ?_⟩
  have hclosed : ∀ g ∈ groups, d.session.reader.Closed (ofLines g) :=
    fun g hg => (hsplit.finished g hg).isClosed (h g hg).1
  have hevaluated := evaluated_hold d.session.store.module rest (d := d) rfl
    fun g hg => ⟨hclosed g hg, (h g hg).2⟩
  have hstacked := Forest.build_stacked (List.forall_mem_map.mpr hclosed) d.session.store.module
  rw [hhold, List.flatMap_map]
  exact ⟨hevaluated, hstacked⟩

/-- A list with a string across two lines and a comment after it, an empty line, a keyword and a
list that the end of the input leaves open: two trees are evaluated, the second one read on line 4
if the lines are a file. -/
theorem converse_evaluates_file_of_five_lines :
    let d : Dialogue :=
      .start { Session.start .default Console.host .empty with depth := 6 } (.ofText [])
    let groups : List (List Text) := [["(list \"x", "y\") ; c"], [[]], [":a"]]
    let rest : List Text := ["(g"]
    let lines : List Text := groups.flatten ++ rest
    let written : List Text :=
      ["> ", ". ", "(\"x\\ny\")\n", "> ", "> ", ":a\n", "> ", ". ", "\n"]
    Split d.session.reader lines groups rest ∧
      (converse lines d).1.session.store.host.written.reverse = written ∧
      (converse lines d).1.evaluated = (groups.map ofLines).flatMap d.session.parse ∧
      (converse lines d).1.evaluated.length = 2 ∧
      (d.session.parse (ofLines groups.flatten)).map (fun n => n.position.line) = [1, 4] := by
  intro d groups rest lines written
  have hsplit : Split d.session.reader lines groups rest := by decide +kernel
  have hvalid : ∀ g ∈ groups, (∀ t ∈ d.session.reader.tokens (ofLines g), t.type ≠ .invalid) ∧
      (ofLines g).trim ≠ ":quit" := by decide +kernel
  have hends : (converse lines d).2 ≠ .stuck := by decide +kernel
  have hwritten : (converse lines d).1.session.store.host.written.reverse = written := by
    decide +kernel
  obtain ⟨-, hall⟩ := converse_evaluates_file lines d rfl
  obtain ⟨-, hjoined, htrees⟩ := hall groups rest hsplit
  obtain ⟨⟨trees, hrecord, -, htrees⟩, hfile⟩ := htrees hvalid
  have hevaluated : (converse lines d).1.evaluated = (groups.map ofLines).flatMap d.session.parse :=
    hrecord.trans (htrees hends)
  refine ⟨hsplit, hwritten, hevaluated, ?_, ?_⟩
  · rw [hevaluated]
    decide +kernel
  · rw [← hjoined, hfile]
    decide +kernel

end Dialogue

end LittleLisp
