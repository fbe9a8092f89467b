/-
# Definitions as they are read

A source of definitions, under any marker and any sigil: the words that start with the marker are
keywords, and in head position those that start with the sigil are names of methods. A definition
works if its name is an identifier and its specification is accepted or its function can be made.
If the heads mean what they should, a list of definitions is loaded if all of them work, and
otherwise loading ends with the fault of the first that does not.

Key definitions: `Definition`, `Definition.Works`, `Definition.Holds`, `Store.Ready`.
Key theorems: `Store.ready_withGlobals`, `Definition.run_definition`,
`Definition.load_definitions`, `Definition.readable_congr`.
-/
import LittleLisp.Proofs.Definitions
import LittleLisp.Proofs.Expansion.Acceptance
import LittleLisp.Proofs.Loading
import LittleLisp.Proofs.Reading.Outline
import LittleLisp.Proofs.Reading.Sigils

namespace LittleLisp

variable {σ : Type}

/-! ### Definitions -/

instance : Coe String Sketch := ⟨fun s => .word s⟩

/-- A definition in a source. -/
inductive Definition where
  /-- `(defsyntax name (syntax-rules () clause ...))` -/
  | form (name : Text) (clauses : List Sketch)
  /-- `(def name (fn (param ...) tree ...))` -/
  | function (name : Text) (params : List Text) (trees : List Sketch)

namespace Definition

/-- The name that is defined. -/
def name : Definition → Text
  | .form name _ => name
  | .function name _ _ => name

/-- Whether the definition is one of a function. -/
def isFunction : Definition → Bool
  | .form _ _ => false
  | .function _ _ _ => true

/-- The parameters of a function. -/
def params : Definition → List Text
  | .form _ _ => []
  | .function _ params _ => params

/-- The specification of a user-defined form. -/
def specification (clauses : List Sketch) : Sketch :=
  .form ("syntax-rules" :: .form [] :: clauses)

/-- The definition as it stands in a source. -/
def sketch : Definition → Sketch
  | .form name clauses => .form ["defsyntax", .word name, specification clauses]
  | .function name params trees =>
    .form ["def", .word name, .form ("fn" :: .form (params.map .word) :: trees)]

end Definition

/-! ### Words and forms as they were read -/

namespace Sketch

open Token (unplaced)

variable {m : Text} {n : Node}

theorem form_of_relabel {items : List Sketch} (h : n.relabel unplaced = (form items).node m) :
    ∃ ns, n = .form ns ∧ ns.map (Node.relabel unplaced) = nodes m items := by
  rw [node] at h
  obtain ⟨ns, rfl, hns⟩ := Acceptance.relabel_eq_form h
  exact ⟨ns, rfl, hns.symm⟩

/-- A word that is no constant was read as a keyword or as an identifier. -/
theorem word_of_relabel {word : Text} (hword : ¬ Token.IsConstant word)
    (h : n.relabel unplaced = (Sketch.word word).node m) :
    ∃ t, n = .leaf t ∧ t.text = word ∧
      (m.extendedBy word = true ∧ t.type = .keyword ∨
        m.extendedBy word = false ∧ t.type = .identifier ∧ t.value = .undefined word) := by
  cases n with
  | absent => simp [Node.relabel, node] at h
  | form ns => simp [Node.relabel, node] at h
  | leaf t =>
    rw [Node.relabel, node, Token.ofAtom_of_not_constant hword] at h
    have ht := Node.leaf.inj h
    refine ⟨t, rfl, ?_⟩
    split at ht
    next hm => exact ⟨congrArg Token.text ht, Or.inl ⟨hm, congrArg Token.type ht⟩⟩
    next hm =>
      exact ⟨congrArg Token.text ht,
        Or.inr ⟨by simpa using hm, congrArg Token.type ht, congrArg Token.value ht⟩⟩

end Sketch

/-! ### Starts of words -/

namespace Text

/-- A text that starts a word starts whatever begins with that word. -/
theorem extendedBy_of_isPrefix {start word longer : Text} (h : start.extendedBy word = true)
    (hword : word <+: longer) : start.extendedBy longer = true := by
  simp only [extendedBy, Bool.and_eq_true, decide_eq_true_eq, List.isPrefixOf_iff_prefix] at h ⊢
  exact ⟨Nat.lt_of_lt_of_le h.1 hword.length_le, h.2.trans hword⟩

/-- A text that starts a word starts no word with another first letter. -/
theorem extendedBy_eq_false {start word other : Text} (hstart : start ≠ [])
    (h : start.extendedBy word = true) (hne : word.head? ≠ other.head?) :
    start.extendedBy other = false := by
  rw [Bool.eq_false_iff]
  intro hother
  simp only [extendedBy, Bool.and_eq_true, List.isPrefixOf_iff_prefix] at h hother
  obtain ⟨b, rest, rfl⟩ := List.exists_cons_of_ne_nil hstart
  obtain ⟨x, rfl⟩ := h.2
  obtain ⟨y, rfl⟩ := hother.2
  exact hne rfl

/-- What holds of one text that starts none of some words, and of all texts that start one of them,
holds of all texts, if only the words it starts make a difference. -/
theorem forall_of_starts {P : Text → Prop} (words : List Text) (other : Text)
    (hP : ∀ m m', (∀ w ∈ words, Text.extendedBy m w = Text.extendedBy m' w) → P m' → P m)
    (hother : ∀ w ∈ words, other.extendedBy w = false) (h : P other)
    (hstarts : ∀ w ∈ words, ∀ m ∈ w.inits, P m) (m : Text) : P m := by
  by_cases hm : ∃ w ∈ words, m.extendedBy w = true
  · obtain ⟨w, hw, hext⟩ := hm
    have hprefix : m <+: w := by
      simp only [Text.extendedBy, Bool.and_eq_true, List.isPrefixOf_iff_prefix] at hext
      exact hext.2
    exact hstarts w hw m ((List.mem_inits m w).mpr hprefix)
  · refine hP m other (fun w hw => ?_) h
    rw [hother w hw, ← Bool.not_eq_true]
    exact fun hext => hm ⟨w, hw, hext⟩

end Text

/-! ### Fresh modules -/

namespace Store

/-- The store of a module without a name and without an embedding program. -/
def bare (s : Store σ) : Store Unit :=
  ⟨[], s.bindings, s.functions, s.transformers, s.stamps, ()⟩

theorem find?_bare (s : Store σ) (name : Text) : s.bare.find? name = s.find? name := rfl

theorem special?_bare (s : Store σ) (name : Text) : s.bare.special? name = s.special? name := rfl

theorem builtin?_bare (s : Store σ) (ref : Nat) : s.bare.builtin? ref = s.builtin? ref := rfl

theorem bare_foldl_bindBuiltin : ∀ (bs : List Builtin) (s : Store σ),
    (bs.foldl bindBuiltin s).bare = bs.foldl bindBuiltin s.bare
  | [], _ => rfl
  | b :: bs, s => by
    have hb : (s.bindBuiltin b).bare = s.bare.bindBuiltin b := by cases b <;> rfl
    rw [List.foldl_cons, List.foldl_cons, bare_foldl_bindBuiltin bs, hb]

theorem bare_foldl_bindSpecial : ∀ (fs : List SpecialForm) (s : Store σ),
    (fs.foldl bindSpecial s).bare = fs.foldl bindSpecial s.bare
  | [], _ => rfl
  | f :: fs, s => by
    have hf : (s.bindSpecial f).bare = s.bare.bindSpecial f := rfl
    rw [List.foldl_cons, List.foldl_cons, bare_foldl_bindSpecial fs, hf]

/-- What a module starts with depends neither on its name nor on the embedding program. -/
theorem bare_withGlobals (module : Text) (state : σ) :
    (withGlobals module state).bare = withGlobals [] () := by
  have hbind (s : Store σ) (name : Text) (v : Value) :
      (s.bind name v).bare = s.bare.bind name v := rfl
  have hempty : (empty module state).bare = empty [] () := rfl
  rw [withGlobals, bare_foldl_bindSpecial, hbind, bare_foldl_bindBuiltin, hempty, withGlobals]

/-- The special forms that definitions are made with. -/
def definers : List SpecialForm := [.defineForm, .define, .lambda]

/-- What definitions rely on: `defsyntax`, `def` and `fn` mean what they should, there is the
function that leaves are evaluated with, and the given words are free. -/
structure Ready (s : Store σ) (words : List Text) : Prop where
  specials : ∀ f ∈ definers, s.special? f.name = some f
  identity : s.builtin? identityRef = some .identity
  free : ∀ word ∈ words, s.find? word = none

theorem ready_withGlobals (module : Text) (state : σ) :
    (withGlobals module state).Ready ["let", "syntax-rules", "n", "f"] := by
  have hspecials : ∀ f ∈ definers, (withGlobals [] ()).special? f.name = some f := by
    decide +kernel
  have hidentity : (withGlobals [] ()).builtin? identityRef = some .identity := by decide +kernel
  have hfree : ∀ word ∈ (["let", "syntax-rules", "n", "f"] : List Text),
      ((withGlobals [] ()).find? word).isNone = true := by decide +kernel
  refine ⟨fun f hf => ?_, ?_, fun word hword => ?_⟩
  · rw [← special?_bare, bare_withGlobals]
    exact hspecials f hf
  · rw [← builtin?_bare, bare_withGlobals]
    exact hidentity
  · rw [← find?_bare, bare_withGlobals]
    exact Option.isNone_iff_eq_none.mp (hfree word hword)

theorem Ready.subset {s : Store σ} {words words' : List Text} (h : s.Ready words)
    (hw : words' ⊆ words) : s.Ready words' :=
  ⟨h.specials, h.identity, fun word hword => h.free word (hw hword)⟩

theorem Ready.extends {s t : Store σ} {names words : List Text} (h : s.Ready words)
    (ht : s.Extends names t)
    (hnames : ∀ name ∈ names, name ∉ definers.map SpecialForm.name ++ words) :
    t.Ready words where
  specials f hf := by
    refine ht.special? (fun hin => hnames _ hin (List.mem_append_left _ ?_)) (h.specials f hf)
    exact List.mem_map_of_mem hf
  identity := ht.builtin? h.identity
  free word hword := by
    rw [ht.others word fun hin => hnames _ hin (List.mem_append_right _ hword)]
    exact h.free word hword

end Store

/-! ### One definition -/

namespace Definition

open Machine (Names Evades Dangling Faulty)
open Token (unplaced)

variable {M : Machine σ} {s t : Store σ} {m : Text} {words : List Text} {depth : Nat}
  {n tree : Node}

/-- Names of values that cannot be printed are left out of messages. -/
def mute : Legend := ⟨fun _ => [], fun _ => [], fun _ => .ok []⟩

/-- Whether a definition comes to something, if keywords start with the marker and method names with
the sigil. -/
def Works (sigil marker : Text) : Definition → Prop
  | .form name clauses => marker.extendedBy name = false ∧
      (Transformation.compile mute name ((specification clauses).node marker)).isOk = true
  | .function name _ _ => marker.extendedBy name = false ∧
      marker.extendedBy "fn" = false ∧ sigil.extendedBy "fn" = false

/-- The name is bound to what the definition, read with the marker, says: to the form that the
clauses describe, or to the function with these parameters and this body. -/
def Holds (marker : Text) (s : Store σ) : Definition → Prop
  | .form name clauses => ∃ L spec x, spec.relabel unplaced = (specification clauses).node marker ∧
      Transformation.compile L name spec = .ok x ∧ s.expander? name = some (.userDefined x)
  | .function name params trees => ∃ body : List Node,
      body.map (Node.relabel unplaced) = Sketch.nodes marker trees ∧
        s.body? name = some (.closure ⟨params, none, body, []⟩)

/-- The name is bound to a value of the right sort. -/
def Bound (s : Store σ) : Definition → Prop
  | .form name _ => ∃ ref, s.find? name = some (.transformer ref)
  | .function name _ _ => ∃ ref, s.find? name = some (.function ref)

theorem Holds.bound {d : Definition} (h : d.Holds m s) : d.Bound s := by
  cases d with
  | form name clauses =>
    obtain ⟨L, spec, x, -, -, hx⟩ := h
    obtain ⟨ref, -, hfind, -⟩ := Store.expander?_eq_some.mp hx
    exact ⟨ref, hfind⟩
  | function name params trees =>
    obtain ⟨body, -, hbody⟩ := h
    obtain ⟨ref, -, hfind, -⟩ := Store.body?_eq_some.mp hbody
    exact ⟨ref, hfind⟩

theorem Holds.extends {d : Definition} (h : d.Holds m s) {names : List Text}
    (ht : s.Extends names t) (hname : d.name ∉ names) : d.Holds m t := by
  cases d with
  | form name clauses =>
    obtain ⟨L, spec, x, hspec, hx, hexp⟩ := h
    exact ⟨L, spec, x, hspec, hx, ht.grows.expander? (ht.others name hname) hexp⟩
  | function name params trees =>
    obtain ⟨body, htrees, hbody⟩ := h
    exact ⟨body, htrees, ht.grows.body? (ht.others name hname) hbody⟩

/-- A word that cannot be a keyword, a constant or the sign of further parameters. -/
def IsParameter (word : Text) : Prop :=
  word.length = 1 ∧ ¬ Token.IsConstant word ∧ word ≠ ("&" : Text)

instance (word : Text) : Decidable (IsParameter word) := inferInstanceAs (Decidable (_ ∧ _))

/-- The words of a definition are of the sorts they should be, whatever a keyword starts with, and
its name is a new one. A parameter list starts with one of the given words. -/
structure Tidy (words : List Text) (d : Definition) : Prop where
  name : d.name ≠ [] ∧ ¬ Token.IsConstant d.name
  fresh : d.name ∉ Store.definers.map SpecialForm.name ++ words
  params : ∀ p ∈ d.params, IsParameter p
  first : d.isFunction = true → ∃ p ∈ words, d.params.head? = some p

theorem tidy_iff {words : List Text} {d : Definition} :
    d.Tidy words ↔ (d.name ≠ [] ∧ ¬ Token.IsConstant d.name) ∧
      d.name ∉ Store.definers.map SpecialForm.name ++ words ∧ (∀ p ∈ d.params, IsParameter p) ∧
        (d.isFunction = true → ∃ p ∈ words, d.params.head? = some p) :=
  ⟨fun h => ⟨h.name, h.fresh, h.params, h.first⟩, fun h => ⟨h.1, h.2.1, h.2.2.1, h.2.2.2⟩⟩

instance (words : List Text) (d : Definition) : Decidable (d.Tidy words) :=
  decidable_of_iff _ tidy_iff.symm

theorem extendedBy_of_length {start word : Text} (hstart : start ≠ []) (hword : word.length = 1) :
    start.extendedBy word = false := by
  have hlength : 0 < start.length := List.length_pos_iff.mpr hstart
  simp [Text.extendedBy, hword, hstart]

/-- The head of a definition that is neither a keyword nor the name of a method. -/
theorem names_of_plain {f : SpecialForm} (hf : f ∈ Store.definers) (hs : s.Ready words)
    (hmarker : m.extendedBy f.name = false)
    (hsigil : M.effectiveSigil.extendedBy f.name = false)
    (hn : n.relabel unplaced = (Sketch.word f.name).node m) :
    ∃ t, n = .leaf t ∧ M.Names s f t := by
  have hword : ¬ Token.IsConstant f.name := by cases f <;> decide
  obtain ⟨t, rfl, htext, ⟨hkeyword, -⟩ | ⟨-, htype, -⟩⟩ := Sketch.word_of_relabel hword hn
  · rw [hmarker] at hkeyword
    simp at hkeyword
  · refine ⟨t, rfl, htype, ?_, ?_⟩
    · simp [Machine.isMethodName, htype, htext, hsigil]
    · rw [htext]
      exact hs.specials f hf

/-- The head of a definition that is a keyword or the name of a method. -/
theorem evades_of_not_plain {f : SpecialForm}
    (h : ¬ (m.extendedBy f.name = false ∧ M.effectiveSigil.extendedBy f.name = false))
    (hn : n.relabel unplaced = (Sketch.word f.name).node m) : ∃ t, n = .leaf t ∧ M.Evades t := by
  have hword : ¬ Token.IsConstant f.name := by cases f <;> decide
  obtain ⟨t, rfl, htext, ⟨-, htype⟩ | ⟨hmarker, htype, -⟩⟩ := Sketch.word_of_relabel hword hn
  · exact ⟨t, rfl, Or.inl htype⟩
  · have hsigil : M.effectiveSigil.extendedBy f.name = true := by simpa [hmarker] using h
    exact ⟨t, rfl, Or.inr (by simp [Machine.isMethodName, htype, htext, hsigil])⟩

/-- A form with a free word as its head. -/
theorem dangling_of_word {word : Text} (hword : ¬ Token.IsConstant word)
    (hmarker : m.extendedBy word = false) (hsigil : M.effectiveSigil.extendedBy word = false)
    (hfree : s.find? word = none) (hn : n.relabel unplaced = (Sketch.word word).node m) :
    ∃ t, n = .leaf t ∧ M.Dangling s t := by
  obtain ⟨t, rfl, htext, ⟨hkeyword, -⟩ | ⟨-, htype, hvalue⟩⟩ := Sketch.word_of_relabel hword hn
  · rw [hmarker] at hkeyword
    simp at hkeyword
  · refine ⟨t, rfl, htype, ?_, ?_, Or.inr ⟨word, hvalue⟩⟩
    · simp [Machine.isMethodName, htype, htext, hsigil]
    · rw [htext, hfree]

/-- What is defined is a keyword, and then the definition has a fault as its value, or it is an
identifier. -/
theorem target_cases {f : SpecialForm} (hf : f = .define ∨ f = .defineForm) {head : Token}
    (hhead : M.Names s f head) {name : Text} (hname : name ≠ [] ∧ ¬ Token.IsConstant name)
    (hn : n.relabel unplaced = (Sketch.word name).node m) :
    (m.extendedBy name = true ∧
      ∀ depth value, M.Faulty (depth + 2) (.form [.leaf head, n, value]) s) ∨
    (m.extendedBy name = false ∧ ∃ t, n.identifier? = some t ∧ t.text = name) := by
  obtain ⟨t, rfl, rfl, ⟨hkeyword, htype⟩ | ⟨hmarker, htype, -⟩⟩ :=
    Sketch.word_of_relabel hname.2 hn
  · exact Or.inl ⟨hkeyword, fun depth value =>
      Machine.faulty_of_target hf hhead (by simp [htype]) hname.1 value⟩
  · exact Or.inr ⟨hmarker, t, by simp [Node.identifier?, htype], rfl⟩

/-- `(defsyntax name (syntax-rules () clause ...))` as it was read. -/
theorem run_form {name : Text} {clauses : List Sketch} (hs : s.Ready words)
    (hplain : m.extendedBy "defsyntax" = false ∧
      M.effectiveSigil.extendedBy "defsyntax" = false)
    (htidy : (Definition.form name clauses).Tidy words)
    (htree : tree.relabel unplaced = (Definition.form name clauses).sketch.node m) :
    ((Definition.form name clauses).Works M.effectiveSigil m →
      ∃ v t, M.run (depth + 2) tree s = some (v, t) ∧ v.isError = false ∧ s.Extends [name] t ∧
        (Definition.form name clauses).Holds m t) ∧
    (¬ (Definition.form name clauses).Works M.effectiveSigil m →
      M.Faulty (depth + 2) tree s) := by
  obtain ⟨ns, rfl, hns⟩ := Sketch.form_of_relabel htree
  simp only [Sketch.nodes, List.map_eq_cons_iff, List.map_eq_nil_iff] at hns
  obtain ⟨_, _, rfl, hhead, target, _, rfl, htarget, spec, _, rfl, hspec, rfl⟩ := hns
  obtain ⟨head, rfl, hnames⟩ := names_of_plain (f := .defineForm) (by simp [Store.definers]) hs
    hplain.1 hplain.2 hhead
  rcases target_cases (Or.inr rfl) hnames htidy.name htarget with
    ⟨hkeyword, hfaulty⟩ | ⟨hmarker, t, hid, ht⟩
  · exact ⟨fun h => absurd (hkeyword.symm.trans h.1) (by simp), fun _ => hfaulty depth spec⟩
  obtain rfl : t.text = name := ht
  have haccept : (Transformation.compile (s.legend M.host) t.text spec).isOk =
      (Transformation.compile mute t.text ((specification clauses).node m)).isOk := by
    rw [← hspec]
    exact (Acceptance.isOk_relabel (f := unplaced) ⟨fun _ => rfl, fun _ => rfl⟩ _ _ _ spec).symm
  rw [Works, ← haccept]
  refine ⟨fun h => ?_, fun h => ?_⟩
  · cases hx : Transformation.compile (s.legend M.host) t.text spec with
    | error alarm =>
      rw [hx] at h
      simp [Except.isOk, Except.toBool] at h
    | ok x =>
      obtain ⟨ref, u, hrun, hext, hexp⟩ := Machine.run_defineForm hnames hid hx
      exact ⟨_, u, hrun, rfl, hext, _, spec, x, hspec, hx, hexp⟩
  · refine Machine.faulty_defineForm hnames hid (Bool.eq_false_iff.mpr fun hok => h ⟨hmarker, hok⟩)

theorem parameters_of_relabel (hm : m ≠ []) : ∀ {params : List Text} {ns : List Node},
    (∀ p ∈ params, IsParameter p) →
      ns.map (Node.relabel unplaced) = Sketch.nodes m (params.map .word) →
        (∀ n ∈ ns, ∃ t, n.identifier? = some t ∧ t.text ≠ "&") ∧
          (ns.filterMap fun n => n.identifier?.map Token.text) = params
  | [], ns, _, hns => by
    obtain rfl := List.map_eq_nil_iff.mp hns
    exact ⟨List.forall_mem_nil _, rfl⟩
  | p :: params, ns, hp, hns => by
    rw [List.forall_mem_cons] at hp
    rw [List.map_cons, Sketch.nodes] at hns
    obtain ⟨first, rest, rfl, hfirst, hrest⟩ := List.map_eq_cons_iff.mp hns
    obtain ⟨hwords, hnames⟩ := parameters_of_relabel hm hp.2 hrest
    obtain ⟨hlength, hconst, hmore⟩ := hp.1
    obtain ⟨t, rfl, htext, ⟨hkeyword, -⟩ | ⟨-, htype, -⟩⟩ := Sketch.word_of_relabel hconst hfirst
    · rw [extendedBy_of_length hm hlength] at hkeyword
      simp at hkeyword
    · have hid : (Node.leaf t).identifier? = some t := by simp [Node.identifier?, htype]
      refine ⟨List.forall_mem_cons.mpr ⟨⟨t, hid, by rwa [htext]⟩, hwords⟩, ?_⟩
      rw [List.filterMap_cons, hid, Option.map_some, htext, hnames]

/-- `(def name (fn (param ...) tree ...))` as it was read. -/
theorem run_function {name : Text} {params : List Text} {trees : List Sketch} (hs : s.Ready words)
    (hm : m ≠ []) (hsigil : M.effectiveSigil ≠ [])
    (hplain : m.extendedBy "def" = false ∧ M.effectiveSigil.extendedBy "def" = false)
    (htidy : (Definition.function name params trees).Tidy words)
    (htree : tree.relabel unplaced = (Definition.function name params trees).sketch.node m) :
    ((Definition.function name params trees).Works M.effectiveSigil m →
      ∃ v t, M.run (depth + 4) tree s = some (v, t) ∧ v.isError = false ∧ s.Extends [name] t ∧
        (Definition.function name params trees).Holds m t) ∧
    (¬ (Definition.function name params trees).Works M.effectiveSigil m →
      M.Faulty (depth + 4) tree s) := by
  obtain ⟨ns, rfl, hns⟩ := Sketch.form_of_relabel htree
  simp only [Sketch.nodes, List.map_eq_cons_iff, List.map_eq_nil_iff] at hns
  obtain ⟨_, _, rfl, hhead, target, _, rfl, htarget, value, _, rfl, hvalue, rfl⟩ := hns
  obtain ⟨head, rfl, hnames⟩ := names_of_plain (f := .define) (by simp [Store.definers]) hs
    hplain.1 hplain.2 hhead
  rcases target_cases (Or.inl rfl) hnames htidy.name htarget with
    ⟨hkeyword, hfaulty⟩ | ⟨hmarker, t, hid, ht⟩
  · exact ⟨fun h => absurd (hkeyword.symm.trans h.1) (by simp), fun _ => hfaulty _ value⟩
  obtain rfl : t.text = name := ht
  obtain ⟨_, rfl, hns⟩ := Sketch.form_of_relabel hvalue
  simp only [Sketch.nodes, List.map_eq_cons_iff] at hns
  obtain ⟨_, _, rfl, hlambda, _, body, rfl, hparams, hbody⟩ := hns
  obtain ⟨ps, rfl, hps⟩ := Sketch.form_of_relabel hparams
  obtain ⟨p, hfree, hp⟩ := htidy.first rfl
  refine ⟨fun h => ?_, fun h => ?_⟩
  · obtain ⟨lambda, rfl, hfn⟩ := names_of_plain (f := .lambda) (by simp [Store.definers]) hs
      h.2.1 h.2.2 hlambda
    obtain ⟨hwords, htexts⟩ := parameters_of_relabel hm htidy.params hps
    obtain ⟨ref, u, hrun, hext, hclosure⟩ := Machine.run_defineLambda hnames hid hfn hs.identity
      hwords body
    rw [htexts] at hclosure
    exact ⟨_, u, hrun, rfl, hext, body, hbody, hclosure⟩
  · -- the parameter list is evaluated as a form, and its head stands for nothing
    obtain ⟨lambda, rfl, hevades⟩ := evades_of_not_plain (M := M) (f := .lambda)
      (fun hfn => h ⟨hmarker, hfn⟩) hlambda
    obtain ⟨params, rfl⟩ : ∃ ps, params = p :: ps := List.head?_eq_some_iff.mp hp
    rw [List.map_cons, Sketch.nodes] at hps
    obtain ⟨first, rest, rfl, hfirst, -⟩ := List.map_eq_cons_iff.mp hps
    obtain ⟨hlength, hconst, -⟩ := htidy.params p List.mem_cons_self
    refine Machine.faulty_define hnames hid fun u hu => ?_
    obtain ⟨word, rfl, hdangling⟩ := dangling_of_word (M := M) (s := u) hconst
      (extendedBy_of_length hm hlength) (extendedBy_of_length hsigil hlength)
      ((hu.others p (by simp)).trans (hs.free p hfree)) hfirst
    exact ⟨_, _, .tree (by simp)
      (Machine.eval_of_first_fails (hevades.plainHead [] u) (hdangling.fails rest) body)⟩

variable (depth) in
/-- If `defsyntax` is a keyword or the name of a method, a definition of the free name `let` has a
fault as its value. -/
theorem faulty_of_evades {clauses : List Sketch} (hs : s.Ready words)
    (hwords : ("let" : Text) ∈ words ∧ ("syntax-rules" : Text) ∈ words)
    (hm : m ≠ []) (hsigil : M.effectiveSigil ≠ [])
    (h : ¬ (m.extendedBy "defsyntax" = false ∧ M.effectiveSigil.extendedBy "defsyntax" = false))
    (htree : tree.relabel unplaced = (Definition.form "let" clauses).sketch.node m) :
    M.Faulty (depth + 2) tree s := by
  obtain ⟨ns, rfl, hns⟩ := Sketch.form_of_relabel htree
  simp only [Sketch.nodes, List.map_eq_cons_iff, List.map_eq_nil_iff] at hns
  obtain ⟨_, _, rfl, hhead, _, _, rfl, htarget, _, _, rfl, hspec, rfl⟩ := hns
  obtain ⟨head, rfl, hevades⟩ := evades_of_not_plain (M := M) (f := .defineForm) h hhead
  obtain ⟨target, rfl, htext, ⟨hkeyword, htype⟩ | ⟨-, htype, hvalue⟩⟩ :=
    Sketch.word_of_relabel (by decide) htarget
  · -- `let` is a keyword, so `defsyntax` is the name of a method and `syntax-rules` is neither
    have hmarker (word : Text) (hne : ("let" : Text).head? ≠ word.head?) :
        m.extendedBy word = false := Text.extendedBy_eq_false hm hkeyword hne
    have hmethod : M.effectiveSigil.extendedBy "defsyntax" = true := by
      simpa [hmarker "defsyntax" (by decide)] using h
    obtain ⟨ns, rfl, hns⟩ := Sketch.form_of_relabel hspec
    rw [Sketch.nodes] at hns
    obtain ⟨first, rest, rfl, hfirst, -⟩ := List.map_eq_cons_iff.mp hns
    obtain ⟨t, rfl, hdangling⟩ := dangling_of_word (M := M) (s := s) (by decide)
      (hmarker "syntax-rules" (by decide)) (Text.extendedBy_eq_false hsigil hmethod (by decide))
      (hs.free _ hwords.2) hfirst
    have hgives : Machine.Collected (M.recur (depth + 1)) [] [.leaf target] s _ s :=
      .cons (.literal (by simp [htype]) (by simp [htype])) .nil
    exact hevades.faulty hgives (hdangling.fails rest) []
  · have hfails : Machine.Fails (M.recur (depth + 1)) [] (.leaf target) s _ s :=
      .unbound htype rfl (by rw [htext]; exact hs.free _ hwords.1) (Or.inr ⟨_, hvalue⟩)
    exact Machine.faulty_of_done
      (Machine.eval_of_first_fails (hevades.plainHead [] s) hfails _)

/-! ### One definition after the other -/

/-- Neither `defsyntax` nor `def` is a keyword or the name of a method. -/
def PlainHeads (sigil marker : Text) : Prop :=
  ∀ word ∈ (["defsyntax", "def"] : List Text),
    marker.extendedBy word = false ∧ sigil.extendedBy word = false

variable (depth) in
theorem run_definition {d : Definition} (hs : s.Ready words) (hm : m ≠ [])
    (hsigil : M.effectiveSigil ≠ []) (hplain : PlainHeads M.effectiveSigil m)
    (htidy : d.Tidy words) (htree : tree.relabel unplaced = d.sketch.node m) :
    (d.Works M.effectiveSigil m →
      ∃ v t, M.run (depth + 4) tree s = some (v, t) ∧ v.isError = false ∧ s.Extends [d.name] t ∧
        d.Holds m t) ∧
    (¬ d.Works M.effectiveSigil m → M.Faulty (depth + 4) tree s) := by
  cases d with
  | form name clauses => exact run_form hs (hplain _ (by simp)) htidy htree
  | function name params trees =>
    exact run_function hs hm hsigil (hplain _ (by simp)) htidy htree

variable (depth) in
/-- Definitions of different names are loaded one after the other, if they all work; otherwise
loading ends with a fault. -/
theorem load_definitions (hm : m ≠ []) (hsigil : M.effectiveSigil ≠ [])
    (hplain : PlainHeads M.effectiveSigil m) : ∀ {ds : List Definition} {s : Store σ}
    {trees : Forest}, s.Ready words → (∀ d ∈ ds, d.Tidy words) → (ds.map name).Nodup →
      trees.map (Node.relabel unplaced) = Sketch.nodes m (ds.map sketch) →
        ((∀ d ∈ ds, d.Works M.effectiveSigil m) →
          ∃ t, M.load (depth + 4) trees s = some (none, t) ∧ s.Extends (ds.map name) t ∧
            ∀ d ∈ ds, d.Holds m t) ∧
        ((¬ ∀ d ∈ ds, d.Works M.effectiveSigil m) →
          ∃ f t, M.load (depth + 4) trees s = some (some f, t))
  | [], s, trees, _, _, _, htrees => by
    obtain rfl := List.map_eq_nil_iff.mp htrees
    refine ⟨fun _ => ⟨s, rfl, ?_, nofun⟩, fun h => absurd nofun h⟩
    exact ⟨fun _ _ => rfl, fun _ f hf => ⟨f, hf, rfl⟩, fun _ _ hx => hx⟩
  | d :: ds, s, trees, hs, htidy, hnodup, htrees => by
    rw [List.map_cons, Sketch.nodes] at htrees
    obtain ⟨tree, rest, rfl, htree, hrest⟩ := List.map_eq_cons_iff.mp htrees
    rw [List.forall_mem_cons] at htidy
    rw [List.map_cons, List.nodup_cons] at hnodup
    obtain ⟨hworks, hfaulty⟩ := run_definition depth hs hm hsigil hplain htidy.1 htree
    by_cases hd : d.Works M.effectiveSigil m
    · obtain ⟨v, t, hrun, hv, hext, hbound⟩ := hworks hd
      have ht : t.Ready words := hs.extends hext fun name hname => by
        rw [List.mem_singleton.mp hname]
        exact htidy.1.fresh
      obtain ⟨hall, hfail⟩ := load_definitions hm hsigil hplain ht htidy.2 hnodup.2 hrest
      rw [Machine.load_cons_value hrun hv, List.forall_mem_cons]
      refine ⟨fun h => ?_, fun h => hfail fun hds => h ⟨hd, hds⟩⟩
      obtain ⟨u, hload, hext', hbounds⟩ := hall h.2
      exact ⟨u, hload, hext.trans hext',
        List.forall_mem_cons.mpr ⟨hbound.extends hext' hnodup.1, hbounds⟩⟩
    · obtain ⟨f, t, hrun⟩ := hfaulty hd
      refine ⟨fun h => absurd (h d List.mem_cons_self) hd, fun _ => ⟨f, t, ?_⟩⟩
      exact Machine.load_cons_fault hrun rest

/-! ### Which words may be keywords -/

/-- Whether a definition is read as it should be, if keywords start with the marker. -/
def readable (marker : Text) : Definition → Bool
  | .form name clauses => !marker.extendedBy name &&
      (Transformation.compile mute name ((specification clauses).node marker)).isOk
  | .function name _ _ => !marker.extendedBy name && !marker.extendedBy "fn"

theorem works_iff {sigil : Text} {d : Definition} :
    d.Works sigil m ↔
      d.readable m = true ∧ (d.isFunction = true → sigil.extendedBy "fn" = false) := by
  cases d <;> simp [Works, readable, isFunction, and_assoc]

/-- How a definition is read depends on which of its words are keywords. -/
theorem readable_congr {m' : Text} {d : Definition}
    (h : ∀ x ∈ d.sketch.outlines, m.extendedBy x.2 = m'.extendedBy x.2) :
    d.readable m = d.readable m' := by
  cases d with
  | form name clauses =>
    simp only [sketch, Sketch.outlines, Sketch.outlinesOfAll] at h
    have hname : m.extendedBy name = m'.extendedBy name := h (.identifier, name) (by simp)
    have hspec : (specification clauses).node m = (specification clauses).node m' :=
      Sketch.node_congr fun x hx => h x (by simp [hx])
    rw [readable, readable, hname, hspec]
  | function name params trees =>
    simp only [sketch, Sketch.outlines, Sketch.outlinesOfAll] at h
    have hname : m.extendedBy name = m'.extendedBy name := h (.identifier, name) (by simp)
    have hfn : m.extendedBy "fn" = m'.extendedBy "fn" :=
      h (.identifier, ("fn" : Text)) (by simp)
    rw [readable, readable, hname, hfn]

end Definition

end LittleLisp
