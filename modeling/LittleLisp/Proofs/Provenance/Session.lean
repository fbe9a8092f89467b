/-
# Where tokens come from, in sessions

A session evaluates trees of sources only, and a fresh module keeps no trees at all. So what all
tokens of sources have in common, and leaves that evaluation makes have too, all tokens have that
such a session ever keeps or comes to.

One such property is to be a word in its place: identifiers have a position, and leaves in place of
a fault carry one.

Key definitions: `Token.Placed`.
Key theorems: `Machine.madeOf_runAll`, `Forest.madeOf_build`, `Session.known_of_parse`,
`Session.Unaided.placed`.
-/
import LittleLisp.Proofs.Loading
import LittleLisp.Proofs.Provenance
import LittleLisp.Proofs.Reading.Layout

namespace LittleLisp

variable {σ : Type} {T : Token → Prop}

/-! ### Runs -/

namespace Machine

variable {M : Machine σ} {depth : Nat} {s t : Store σ} (hT : Token.Enduring T)

include hT

theorem madeOf_run (hs : s.MadeOf T) {tree : Node} (htree : tree.MadeOf T) {v : Value}
    (h : M.run depth tree s = some (v, t)) : t.MadeOf T := by
  have hstore := ((alike_recur (M := M) hT depth).eval [] tree htree s hs).2.1
  rwa [store_of_run h] at hstore

theorem madeOf_runAll : ∀ (forest : Forest) {s t : Store σ} {vs : List Value}, s.MadeOf T →
    (∀ n ∈ forest, n.MadeOf T) → M.runAll depth forest s = some (vs, t) → t.MadeOf T
  | [], s, t, vs, hs, _, h => by
    cases h
    exact hs
  | tree :: trees, s, t, vs, hs, hforest, h => by
    rw [List.forall_mem_cons] at hforest
    obtain ⟨v, u, ws, -, hrun, hrest⟩ := runAll_cons_inv h
    exact madeOf_runAll trees (madeOf_run hT hs hforest.1 hrun) hforest.2 hrest

theorem madeOf_load : ∀ (forest : Forest) {s t : Store σ} {r : Option Fault}, s.MadeOf T →
    (∀ n ∈ forest, n.MadeOf T) → M.load depth forest s = some (r, t) → t.MadeOf T
  | [], s, t, r, hs, _, h => by
    cases h
    exact hs
  | tree :: trees, s, t, r, hs, hforest, h => by
    rw [List.forall_mem_cons] at hforest
    obtain ⟨v, u, hrun, hend⟩ := load_cons_inv h
    have hu := madeOf_run hT hs hforest.1 hrun
    rcases hend with rfl | hrest
    · exact hu
    · exact madeOf_load trees hu hforest.2 hrest

end Machine

/-! ### Sources -/

namespace Forest

/-- All tokens of a forest have a property that its tokens have, and the leaf that reports what is
wrong with them if they cannot be built. -/
theorem madeOf_build (module : Text) {ts : List Token} (hts : ∀ t ∈ ts, T t)
    (hreport : ∀ f, extend module .empty ts = .error f → T ⟨.error, f.pos, f.message, .error f⟩) :
    ∀ n ∈ build module ts, n.MadeOf T := by
  have hextend : ∀ (ts : List Token) {s s' : Stack}, (∀ t ∈ ts, T t) →
      s.All (Node.MadeOf T) → extend module s ts = .ok s' → s'.All (Node.MadeOf T) := by
    intro ts
    induction ts with
    | nil =>
      intro s s' _ hs h
      cases h
      exact hs
    | cons t ts ih =>
      intro s s' hts hs h
      rw [List.forall_mem_cons] at hts
      unfold extend at h
      split at h
      · exact ih hts.2 hs.enter h
      · split at h
        · rename_i hclose
          exact ih hts.2 (hs.close (fun _ => .form) hclose) h
        · simp at h
      · simp at h
      · exact ih hts.2 (hs.add (.leaf hts.1)) h
  unfold build
  split
  · rename_i s hs
    exact (hextend ts hts Stack.all_empty hs).forest fun _ => .form
  · rename_i f hf
    intro n hn
    rw [List.mem_singleton.mp hn]
    exact .leaf (hreport f hf)

/-- What is wrong with tokens has the position of one of them. -/
theorem known_of_extend {module : Text} {f : Fault} : ∀ {ts : List Token} {s : Stack},
    (∀ t ∈ ts, t.pos.isUnknown = false) → extend module s ts = .error f → f.pos.isUnknown = false
  | [], s, _, h => by simp [extend] at h
  | t :: ts, s, hts, h => by
    rw [List.forall_mem_cons] at hts
    unfold extend at h
    split at h
    · exact known_of_extend hts.2 h
    · split at h
      · exact known_of_extend hts.2 h
      · rw [← Except.error.inj h, Fault.located_of_known hts.1]
        exact hts.1
    · rw [← Except.error.inj h]
      exact hts.1
    · exact known_of_extend hts.2 h

end Forest

/-! ### Words in their place -/

namespace Token

/-- An identifier has a position, and a leaf in place of a fault carries one. -/
structure Placed (t : Token) : Prop where
  identifier : t.type = .identifier → t.pos.isUnknown = false
  fault : t.type = .error → ∃ f, t.value = .error f

theorem placed_enduring : Enduring Placed where
  computed _ _ := ⟨nofun, nofun⟩
  report f := ⟨nofun, fun _ => ⟨f, rfl⟩⟩

end Token

namespace Reader

theorem Spelled.type_ne_error {r : Reader} {gs : List Glyph} {t : Token} (h : Spelled r gs t) :
    t.type ≠ .error := by
  cases h with
  | word p h =>
    obtain ⟨type, value, htype, hatom⟩ := ofAtom_eq r.effectiveMarker (Glyph.bytes gs)
    rw [hatom]
    rcases htype with rfl | rfl | rfl <;> simp
  | _ => simp

theorem placed_tokens (r : Reader) (source : Text) : ∀ t ∈ r.tokens source, t.Placed :=
  fun t ht => ⟨fun _ => r.known_tokens source t ht,
    fun herror => absurd herror (r.spelled_tokens source t ht).type_ne_error⟩

end Reader

namespace Session

variable {c : Config} {H : Host σ} {state : σ} {s s' : Session σ}

/-- All tokens of the trees of a source have a position. -/
theorem known_of_parse (s : Session σ) (source : Text) :
    ∀ n ∈ s.parse source, n.MadeOf fun t => t.pos.isUnknown = false :=
  Forest.madeOf_build _ (s.reader.known_tokens source)
    fun _ => Forest.known_of_extend (s.reader.known_tokens source)

theorem placed_of_parse (s : Session σ) (source : Text) :
    ∀ n ∈ s.parse source, n.MadeOf Token.Placed :=
  Forest.madeOf_build _ (s.reader.placed_tokens source) fun f _ => Token.placed_enduring.report f

/-- A fresh module keeps no trees. -/
theorem madeOf_withGlobals (module : Text) (state : σ) :
    (Store.withGlobals module state).MadeOf T := by
  have hbuiltin (s : Store σ) (b : Builtin) (hs : s.MadeOf T) : (s.bindBuiltin b).MadeOf T := by
    have hnew := (hs.addFunction (f := ⟨b.name, .builtin b⟩) trivial).bind b.name
    cases b with
    | identity => exact hs.bind _ _
    | get => exact hs.bind _ _
    | _ => exact hnew _
  have hspecial (s : Store σ) (f : SpecialForm) (hs : s.MadeOf T) : (s.bindSpecial f).MadeOf T :=
    (hs.addTransformer (x := ⟨f.name, .special f⟩) trivial).bind f.name _
  have hempty : (Store.empty module state).MadeOf T := by
    refine ⟨fun f hf => ?_, fun x hx => ?_⟩
    · simp only [Store.empty, Array.mem_map] at hf
      obtain ⟨b, -, rfl⟩ := hf
      trivial
    · rw [List.mem_singleton.mp (Array.mem_def.mp hx)]
      trivial
  have hbuiltins := List.foldlRecOn Builtin.all Store.bindBuiltin hempty
    fun s hs b _ => hbuiltin s b hs
  exact List.foldlRecOn SpecialForm.all Store.bindSpecial (hbuiltins.bind "pi" _)
    fun s hs f _ => hspecial s f hs

/-- In whatever such a session keeps, words are in their place. -/
theorem Unaided.placed (h : s.Unaided c H state) : s.store.MadeOf Token.Placed := by
  induction h with
  | start depth => exact madeOf_withGlobals _ _
  | @eval s s' source vs _ hs ih =>
    obtain ⟨store, hrun, rfl⟩ := evalForest_eq_some.mp hs
    exact Machine.madeOf_runAll Token.placed_enduring _ ih (s.placed_of_parse source) hrun
  | @load s s' source r _ hs ih =>
    obtain ⟨store, hrun, rfl⟩ := load_eq_some.mp hs
    exact Machine.madeOf_load Token.placed_enduring _ ih (s.placed_of_parse source) hrun
  | bind _ name _ ih => exact ih.bind name _

end Session

end LittleLisp
