/-
# Loading the prelude

A configuration decides what the words of the prelude are: those that start with the marker are
keywords, and in head position those that start with the sigil are names of methods. However it
is read, the prelude is a list of definitions, and it is loaded exactly if they all work.

Only the words a marker starts make a difference, and there are finitely many starts of words, so
which markers fit is found by looking at each of them once.

Key definitions: `preludeDefinitions`, `preludeWords`, `Session.PreludeFits`.
Key theorems: `Session.parse_prelude`, `preludeReadable_iff`, `Session.prelude_loads_iff`.
-/
import LittleLisp.Proofs.Definitions.Sketched

namespace LittleLisp

variable {σ : Type}

/-! ### The definitions of the prelude -/

/-- The definitions of the prelude. -/
def preludeDefinitions : List Definition :=
  [ .form "let"
      [.form [.form ["_", .form [.form ["name", "value"], "..."], "body1", "body2", "..."],
        .form [.form ["fn", .form ["name", "..."], "body1", "body2", "..."], "value", "..."]]],
    .form "and"
      [.form [.form ["_"], "true"],
        .form [.form ["_", "e"], "e"],
        .form [.form ["_", "e1", "e2", "e3", "..."],
          .form ["if", "e1", .form ["and", "e2", "e3", "..."], "false"]]],
    .form "or"
      [.form [.form ["_"], "false"],
        .form [.form ["_", "e"], "e"],
        .form [.form ["_", "e1", "e2", "e3", "..."],
          .form ["if", "e1", "true", .form ["or", "e2", "e3", "..."]]]],
    .form "when"
      [.form [.form ["_", "test", "body", "..."],
        .form ["if", "test", .form ["do", "body", "..."]]]],
    .form "unless"
      [.form [.form ["_", "test", "body", "..."],
        .form ["if", "test", "nil", .form ["do", "body", "..."]]]],
    .function "inc" ["n"] [.form ["+", "n", "1"]],
    .function "dec" ["n"] [.form ["-", "n", "1"]],
    .function "map" ["f", "l"]
      [.form ["if", .form ["=", .form ["count", "l"], "0"],
        .form ["list"],
        .form ["cons", .form ["f", .form ["get", "l", "0"]],
          .form ["map", "f", .form ["rest", "l"]]]]] ]

/-- However it is read, the prelude is these definitions. -/
theorem Session.parse_prelude (s : Session σ) :
    (s.parse preludeSource).map (Node.relabel Token.unplaced) =
      Sketch.nodes s.reader.effectiveMarker (preludeDefinitions.map Definition.sketch) := by
  have houtline : ((Reader.mk [] []).tokens preludeSource).map Token.outline =
      Sketch.outlinesOfAll (preludeDefinitions.map Definition.sketch) := by decide +kernel
  exact Sketch.build_eq s.store.module houtline (by decide +kernel) s.reader

/-! ### Which of its words may be keywords -/

/-- The words of the prelude that must not be keywords: two special forms, what a specification
starts with, the names that are defined, and the last variable before each ellipsis. -/
def preludeWords : List Text :=
  ["defsyntax", "fn", "syntax-rules", "let", "and", "or", "when", "unless", "inc", "dec", "map",
    "name", "value", "body2", "e3"]

/-- The prelude is read as it should be. -/
def PreludeReadable (m : Text) : Prop :=
  m.extendedBy "defsyntax" = false ∧ ∀ d ∈ preludeDefinitions, d.readable m = true

instance (m : Text) : Decidable (PreludeReadable m) := inferInstanceAs (Decidable (_ ∧ _))

/-- This is so exactly when none of the words is a keyword. -/
theorem preludeReadable_iff (m : Text) :
    PreludeReadable m ↔ ∀ w ∈ preludeWords, m.extendedBy w = false := by
  let words := ((preludeDefinitions.flatMap fun d => d.sketch.outlines).map Prod.snd).eraseDups
  have hneeded : ∀ w ∈ preludeWords, w ∈ words := by decide +kernel
  refine Text.forall_of_starts (P := fun m => PreludeReadable m ↔
    ∀ w ∈ preludeWords, Text.extendedBy m w = false) words ":" (fun m m' h hm' => ?_)
    (by decide +kernel) (by decide +kernel) (by decide +kernel) m
  have hreadable : ∀ d ∈ preludeDefinitions, d.readable m = d.readable m' := fun d hd =>
    Definition.readable_congr fun x hx =>
      h x.2 (List.mem_eraseDups.mpr (List.mem_map_of_mem (List.mem_flatMap_of_mem hd hx)))
  have hsame : PreludeReadable m ↔ PreludeReadable m' := by
    refine and_congr ?_ (forall₂_congr fun d hd => by rw [hreadable d hd])
    rw [h _ (hneeded "defsyntax" (by decide))]
  rw [hsame, hm']
  exact forall₂_congr fun w hw => by rw [h w (hneeded w hw)]

/-! ### Loading -/

namespace Session

/-- Neither the sigil nor the marker gets in the way of the prelude. -/
def PreludeFits (sigil marker : Text) : Prop :=
  (∀ word ∈ (["defsyntax", "fn"] : List Text), sigil.extendedBy word = false) ∧
    ∀ word ∈ preludeWords, marker.extendedBy word = false

theorem preludeFits_iff {sigil marker : Text} :
    PreludeFits sigil marker ↔
      (marker.extendedBy "defsyntax" = false ∧ sigil.extendedBy "defsyntax" = false) ∧
        ∀ d ∈ preludeDefinitions, d.Works sigil marker := by
  have hfunction : ∃ d ∈ preludeDefinitions, d.isFunction = true := by decide
  simp only [Definition.works_iff, PreludeFits, ← preludeReadable_iff, PreludeReadable,
    List.forall_mem_cons]
  constructor
  · rintro ⟨⟨hhead, hfn, -⟩, hmarker, hreadable⟩
    exact ⟨⟨hmarker, hhead⟩, fun d hd => ⟨hreadable d hd, fun _ => hfn⟩⟩
  · rintro ⟨⟨hmarker, hhead⟩, hworks⟩
    obtain ⟨d, hd, hf⟩ := hfunction
    exact ⟨⟨hhead, (hworks d hd).2 hf, List.forall_mem_nil _⟩, hmarker,
      fun d hd => (hworks d hd).1⟩

variable {c : Config} (host : Host σ) (state : σ)

/-- Under a checked configuration the prelude is loaded, so that all of its definitions hold and all
other names are as they were, or loading it ends with a fault. -/
theorem loadPrelude_holds (hc : c.IsValid) :
    (PreludeFits c.sigil c.marker →
      ∃ t, (start c host state).loadPrelude = some (none, { start c host state with store := t }) ∧
        (Store.withGlobals c.module state).Extends (preludeDefinitions.map Definition.name) t ∧
          ∀ d ∈ preludeDefinitions, d.Holds c.marker t) ∧
    (¬ PreludeFits c.sigil c.marker →
      ∃ f s', (start c host state).loadPrelude = some (some f, s')) := by
  have hm : c.marker ≠ [] := (Config.marker_of_valid hc).1
  have hsigil : (start c host state).machine.effectiveSigil = c.sigil :=
    if_neg (Config.sigil_of_valid hc).1
  have hsigil' : (start c host state).machine.effectiveSigil ≠ [] := by
    rw [hsigil]
    exact (Config.sigil_of_valid hc).1
  have hready := Store.ready_withGlobals c.module state
  have hparams : (Store.withGlobals c.module state).Ready ["n", "f"] := hready.subset (by simp)
  have htrees := (start c host state).parse_prelude
  rw [show (start c host state).reader.effectiveMarker = c.marker from if_neg hm] at htrees
  obtain ⟨depth, hdepth⟩ : ∃ d, (start c host state).depth = d + 4 := ⟨unlimited - 4, rfl⟩
  rw [preludeFits_iff, ← hsigil]
  by_cases hhead : c.marker.extendedBy "defsyntax" = false ∧
      (start c host state).machine.effectiveSigil.extendedBy "defsyntax" = false
  · have hplain : Definition.PlainHeads (start c host state).machine.effectiveSigil c.marker := by
      have hdef : ("def" : Text) <+: ("defsyntax" : Text) := by decide
      have hshort {start : Text} (h : start.extendedBy "defsyntax" = false) :
          start.extendedBy "def" = false :=
        Bool.eq_false_iff.mpr fun hd => by
          rw [Text.extendedBy_of_isPrefix hd hdef] at h
          simp at h
      intro word hword
      rcases List.mem_pair.mp hword with rfl | rfl
      · exact hhead
      · exact ⟨hshort hhead.1, hshort hhead.2⟩
    obtain ⟨hall, hfail⟩ := Definition.load_definitions depth hm hsigil' hplain hparams
      (by decide +kernel) (by decide +kernel) htrees
    rw [← hdepth] at hall hfail
    refine ⟨fun h => ?_, fun h => ?_⟩
    · obtain ⟨t, hload, hext, hholds⟩ := hall h.2
      exact ⟨t, load_eq_some.mpr ⟨_, hload, rfl⟩, hext, hholds⟩
    · obtain ⟨f, t, hload⟩ := hfail fun hworks => h ⟨hhead, hworks⟩
      exact ⟨f, _, load_eq_some.mpr ⟨_, hload, rfl⟩⟩
  · refine ⟨fun h => absurd h.1 hhead, fun _ => ?_⟩
    rw [preludeDefinitions, List.map_cons, Sketch.nodes] at htrees
    obtain ⟨tree, rest, hparse, htree, -⟩ := List.map_eq_cons_iff.mp htrees
    obtain ⟨f, t, hrun⟩ := Definition.faulty_of_evades (depth + 2) hready (by decide) hm hsigil'
      hhead htree
    have hload := Machine.load_cons_fault hrun rest
    rw [← hparse, ← hdepth] at hload
    exact ⟨f, _, load_eq_some.mpr ⟨_, hload, rfl⟩⟩

/-- The prelude is loaded with all of its names bound, or loading it ends with a fault. -/
theorem loadPrelude_cases (hc : c.IsValid) :
    (PreludeFits c.sigil c.marker →
      ∃ s', (start c host state).loadPrelude = some (none, s') ∧
        ∀ d ∈ preludeDefinitions, d.Bound s'.store) ∧
    (¬ PreludeFits c.sigil c.marker →
      ∃ f s', (start c host state).loadPrelude = some (some f, s')) := by
  refine ⟨fun h => ?_, (loadPrelude_holds host state hc).2⟩
  obtain ⟨t, hload, -, hholds⟩ := (loadPrelude_holds host state hc).1 h
  exact ⟨_, hload, fun d hd => (hholds d hd).bound⟩

/-- **When the prelude loads.** Under a checked configuration the prelude is loaded without a fault,
its forms bound to transformers and its helpers to functions, exactly if the sigil starts neither
`defsyntax` nor `fn` and the marker starts none of the words of the prelude that must be
identifiers. Otherwise loading ends with a fault. -/
theorem prelude_loads_iff (c : Config) (hc : c.IsValid) (host : Host σ) (state : σ) :
    (PreludeFits c.sigil c.marker ↔
      ∃ s', (start c host state).loadPrelude = some (none, s') ∧
        (∀ name ∈ (["let", "and", "or", "when", "unless"] : List Text),
          ∃ ref, s'.store.find? name = some (.transformer ref)) ∧
        ∀ name ∈ (["inc", "dec", "map"] : List Text),
          ∃ ref, s'.store.find? name = some (.function ref)) ∧
    (¬ PreludeFits c.sigil c.marker →
      ∃ f s', (start c host state).loadPrelude = some (some f, s')) := by
  obtain ⟨hfits, hfaults⟩ := loadPrelude_cases host state hc
  refine ⟨⟨fun h => ?_, fun h => ?_⟩, hfaults⟩
  · obtain ⟨s', hload, hbound⟩ := hfits h
    simp only [preludeDefinitions, List.forall_mem_cons, Definition.Bound] at hbound
    obtain ⟨hlet, hand, hor, hwhen, hunless, hinc, hdec, hmap, -⟩ := hbound
    refine ⟨s', hload, ?_, ?_⟩
    · simp only [List.forall_mem_cons]
      exact ⟨hlet, hand, hor, hwhen, hunless, List.forall_mem_nil _⟩
    · simp only [List.forall_mem_cons]
      exact ⟨hinc, hdec, hmap, List.forall_mem_nil _⟩
  · obtain ⟨s', hload, -⟩ := h
    by_contra hfits
    obtain ⟨f, t, hfault⟩ := hfaults hfits
    rw [hload] at hfault
    simp at hfault

/-- With `->` in front of methods and `%` in front of keywords the prelude is loaded. -/
theorem prelude_loads_with_arrow :
    let c : Config := ⟨"app", "->", "%", true⟩
    c.IsValid ∧ PreludeFits c.sigil c.marker ∧
      ∃ s', (start c .none ()).loadPrelude = some (none, s') ∧
        (∃ ref, s'.store.find? "let" = some (.transformer ref)) ∧
        ∃ ref, s'.store.find? "map" = some (.function ref) := by
  intro c
  have hc : c.IsValid := by decide
  have hfits : PreludeFits c.sigil c.marker := by
    rw [PreludeFits]
    decide
  obtain ⟨s', hload, hforms, hfunctions⟩ := (prelude_loads_iff c hc .none ()).1.mp hfits
  exact ⟨hc, hfits, s', hload, hforms "let" (by simp), hfunctions "map" (by simp)⟩

/-- With `d` in front of methods, which the check lets pass, `defsyntax` is the name of a method,
and the prelude is not loaded. -/
theorem prelude_stopped_by_sigil :
    let c : Config := ⟨"user", "d", ":", true⟩
    c.IsValid ∧ ¬ ∃ s', (start c .none ()).loadPrelude = some (none, s') := by
  intro c
  have hc : c.IsValid := by decide
  have hfits : ¬ PreludeFits c.sigil c.marker := by
    rw [PreludeFits]
    decide
  refine ⟨hc, fun h => ?_⟩
  obtain ⟨s', hload⟩ := h
  obtain ⟨f, t, hfault⟩ := (loadPrelude_cases .none () hc).2 hfits
  rw [hload] at hfault
  simp at hfault

end Session

end LittleLisp
