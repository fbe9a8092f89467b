/-
# Sessions keep a policy

What a reader makes of a source may be held under every policy: the leaves of its trees
are identifiers that stand for nothing yet, keywords and literals. A fresh module may be
held too. So a session that starts from there follows the policy from tree to tree, as
long as what interrupts an evaluation may also be reported.

Key definitions: `Token.Plain`, `Machine.Undisturbed`.
Key theorems: `Reader.plain_tokens`, `Policy.nodeResult_parse`, `Policy.storeHeld_withGlobals`,
`Policy.runAll_held`, `Policy.load_held`, `Policy.undisturbed`.
-/
import LittleLisp.Proofs.Policy.Machine
import LittleLisp.Session

namespace LittleLisp

/-! ### Tokens of a source -/

/-- A token that the reader makes: a bracket, a token that cannot be read, an identifier, or
something that stands for an atom. -/
inductive Token.Plain (t : Token) : Prop where
  | bracket (h : t.type = .listBegin ∨ t.type = .listEnd)
  | invalid (h : t.type = .invalid)
  | identifier (h : t.type = .identifier) (hv : t.value = .undefined t.text)
  | atom (a : Atom) (hv : t.value = .atom a)

theorem Token.plain_ofAtom (marker : Text) (pos : Position) (word : Text) :
    (Token.ofAtom marker pos word).Plain := by
  unfold Token.ofAtom
  dsimp only
  split
  · exact .atom _ rfl
  · split
    · exact .atom _ rfl
    · split
      · exact .atom _ rfl
      · split
        · exact .atom _ rfl
        · split_ifs
          · exact .atom _ rfl
          · exact .identifier rfl rfl

namespace Reader

variable (r : Reader)

/-- All tokens read so far are plain. -/
def AllPlain (s : State) : Prop := ∀ t ∈ s.done, t.Plain

variable {r}

theorem AllPlain.push {s : State} (h : AllPlain s) {t : Token} (ht : t.Plain) (place : Place)
    (depth : Nat) (mode : Mode) : AllPlain ⟨place, depth, mode, t :: s.done⟩ :=
  List.forall_mem_cons.mpr ⟨ht, h⟩

theorem allPlain_startToken {s : State} (h : AllPlain s) (g : Glyph) :
    AllPlain (startToken r s g) := by
  unfold startToken
  dsimp only
  split_ifs
  · exact h
  · exact h
  · exact h
  · exact h.push (.bracket (Or.inl rfl)) _ _ _
  · exact h.push (.invalid rfl) _ _ _
  · exact h.push (.bracket (Or.inr rfl)) _ _ _
  · exact h
  · exact h.push (.invalid rfl) _ _ _
  · exact h

theorem allPlain_continueWord {s : State} (h : AllPlain s) (start : Place) (seen : List Glyph)
    (g : Glyph) : AllPlain (continueWord r s start seen g) := by
  unfold continueWord
  split_ifs
  · exact allPlain_startToken (h.push (Token.plain_ofAtom _ _ _) _ _ _) g
  · exact h

/-- One more glyph adds plain tokens only. -/
theorem allPlain_step {s : State} (h : AllPlain s) (g : Glyph) : AllPlain (step r s g) := by
  unfold step
  dsimp only
  split
  · exact allPlain_startToken h g
  · split_ifs
    · exact h
    · exact allPlain_continueWord h _ _ g
  · exact allPlain_continueWord h _ _ g
  · split_ifs
    · exact h
    · exact h.push (.atom _ rfl) _ _ _
    · exact h
    · exact h
  · split_ifs
    · exact h
    · exact h
  · split_ifs
    · exact h
    · exact h

theorem allPlain_run : ∀ (gs : List Glyph) {s : State}, AllPlain s → AllPlain (r.run s gs)
  | [], _, h => h
  | g :: gs, _, h => allPlain_run gs (allPlain_step h g)

variable (r) in
/-- Every token of every source is plain. -/
theorem plain_tokens (source : Text) : ∀ t ∈ r.tokens source, t.Plain := by
  have h : AllPlain (r.run initial source.glyphs) :=
    allPlain_run _ fun t ht => absurd ht List.not_mem_nil
  unfold tokens finish
  split <;> simp only [List.mem_reverse, List.forall_mem_cons]
  · exact h
  · exact ⟨Token.plain_ofAtom _ _ _, h⟩
  · exact ⟨Token.plain_ofAtom _ _ _, h⟩
  · exact ⟨.invalid rfl, h⟩
  · exact h
  · exact ⟨.invalid rfl, h⟩

end Reader

namespace Policy

variable {σ : Type} {P : Policy σ} {M : Machine σ} (hP : P.Admits M) {e : Extent}

/-! ### Trees of a source -/

section Trees

omit hP in
/-- The trees of a partly built forest may all be held. -/
def StackHeld (P : Policy σ) (e : Extent) (s : Forest.Stack) : Prop := s.All (P.NodeHeld e)

include hP

/-- A plain token that becomes a leaf may be held. -/
theorem tokenHeld_of_plain {t : Token} (ht : t.Plain) (hb : t.type ≠ .listBegin)
    (he : t.type ≠ .listEnd) (hi : t.type ≠ .invalid) : P.TokenHeld e t := by
  cases ht with
  | bracket h => exact absurd h (by simp [hb, he])
  | invalid h => exact absurd h hi
  | identifier h hv => exact Or.inl ⟨h, _, hv⟩
  | atom a hv => exact Or.inr (hv ▸ held_atom hP a)

/-- Adding plain tokens to a partly built forest ends with trees that may be held, or with a fault
of its own kind. -/
theorem stackHeld_extend (module : Text) : ∀ (ts : List Token) {s : Forest.Stack},
    (∀ t ∈ ts, t.Plain) → P.StackHeld e s →
      (∀ s', Forest.extend module s ts = .ok s' → P.StackHeld e s') ∧
        ∀ f, Forest.extend module s ts = .error f → P.reports f
  | [], s, _, hs => by simpa [Forest.extend] using hs
  | t :: ts, s, hts, hs => by
    rw [List.forall_mem_cons] at hts
    unfold Forest.extend
    split
    · exact stackHeld_extend module ts hts.2 hs.enter
    · split
      · rename_i s' hclose
        exact stackHeld_extend module ts hts.2 (hs.close (fun _ => .form) hclose)
      · refine ⟨by simp, fun f hf => ?_⟩
        rw [← Except.error.inj hf]
        exact hP.internal (by simp [Fault.placed])
    · refine ⟨by simp, fun f hf => ?_⟩
      rw [← Except.error.inj hf]
      exact hP.internal (by simp [Fault.placed])
    · rename_i hb he hi
      exact stackHeld_extend module ts hts.2 (hs.add (.leaf (tokenHeld_of_plain hP hts.1 hb he hi)))

/-- The trees of a source may be held, except that one which cannot be read is the report of a
fault. -/
theorem nodeResult_build (module : Text) {ts : List Token} (hts : ∀ t ∈ ts, t.Plain) :
    ∀ n ∈ Forest.build module ts, P.NodeResult e n := by
  obtain ⟨hok, herr⟩ := stackHeld_extend hP module ts hts Forest.Stack.all_empty
  unfold Forest.build
  split
  · rename_i s hs
    exact fun n hn => Or.inl ((hok s hs).forest (fun _ => .form) n hn)
  · rename_i f hf
    intro n hn
    rw [List.mem_singleton.mp hn]
    exact NodeResult.fault (herr f hf)

theorem nodeResult_parse (s : Session σ) (source : Text) :
    ∀ n ∈ s.parse source, P.NodeResult e n :=
  nodeResult_build hP _ (Reader.plain_tokens _ _)

end Trees

/-! ### A fresh module -/

section Fresh

include hP

theorem storeHeld_empty (hget : M.getter = Store.getRef) (module : Text) {state : σ}
    (hstate : P.states state) : P.StoreHeld M (.empty module state) := by
  refine ⟨by simp [Store.empty, ScopeHeld], fun f hf => ?_, fun x hx => ?_, ?_, hstate⟩
  · simp only [Store.empty, Array.mem_map] at hf
    obtain ⟨b, -, rfl⟩ := hf
    trivial
  · rw [List.mem_singleton.mp (Array.mem_def.mp hx)]
    trivial
  · have hfun : ∀ ref < 3, P.holds (Store.empty module state).extent (.function ref) :=
      fun ref href => hP.function (by simpa [Store.empty, Store.extent] using href)
    exact ⟨hfun _ (by decide), hget ▸ hfun _ (by decide), hfun _ (by decide),
      hP.transformer Nat.zero_lt_one⟩

theorem StoreHeld.bindBuiltin {s : Store σ} (hget : M.getter = Store.getRef)
    (hs : P.StoreHeld M s) (b : Builtin) : P.StoreHeld M (s.bindBuiltin b) := by
  have hnew : P.StoreHeld M ((s.addFunction ⟨b.name, .builtin b⟩).2.bind b.name
      (.function (s.addFunction ⟨b.name, .builtin b⟩).1)) := by
    have hb : P.BodyHeld s.extent (.builtin b) := trivial
    obtain ⟨-, hs', href⟩ := hs.addFunction hP (f := ⟨b.name, .builtin b⟩) hb
    exact hs'.bind (.part rfl href) _
  cases b with
  | identity => exact hs.bind (.part rfl hs.core.identity) _
  | get => exact hs.bind (.part rfl (hget ▸ hs.core.getter)) _
  | _ => exact hnew

theorem StoreHeld.bindSpecial {s : Store σ} (hs : P.StoreHeld M s) (f : SpecialForm) :
    P.StoreHeld M (s.bindSpecial f) := by
  have hf : P.ExpanderHeld s.extent (.special f) := trivial
  obtain ⟨-, hs', href⟩ := hs.addTransformer hP (x := ⟨f.name, .special f⟩) hf
  exact hs'.bind (.part rfl href) _

/-- A fresh module follows every policy. -/
theorem storeHeld_withGlobals (hget : M.getter = Store.getRef) (module : Text) {state : σ}
    (hstate : P.states state) : P.StoreHeld M (.withGlobals module state) := by
  have hbuiltins : ∀ (bs : List Builtin) {s : Store σ}, P.StoreHeld M s →
      P.StoreHeld M (bs.foldl Store.bindBuiltin s) := by
    intro bs
    induction bs with
    | nil => exact fun hs => hs
    | cons b bs ih => exact fun hs => ih (hs.bindBuiltin hP hget b)
  have hspecials : ∀ (fs : List SpecialForm) {s : Store σ}, P.StoreHeld M s →
      P.StoreHeld M (fs.foldl Store.bindSpecial s) := by
    intro fs
    induction fs with
    | nil => exact fun hs => hs
    | cons f fs ih => exact fun hs => ih (hs.bindSpecial hP f)
  exact hspecials _
    ((hbuiltins _ (storeHeld_empty hP hget module hstate)).bind (held_atom hP _) _)

end Fresh

/-! ### Runs -/

section Runs

variable {depth : Nat} {s s' : Store σ}

include hP

theorem keeps_tree (depth : Nat) (hs : P.StoreHeld M s) {tree : Node}
    (ht : P.NodeResult s.extent tree) :
    P.Keeps M P.Result s.extent ((M.recur depth).eval [] tree s) :=
  (recurHeld_recur hP depth).eval hs (by simp [ScopeHeld]) ht

variable (hreport : ∀ alarm ps, P.raises alarm → P.reports (alarm.toFault .native ps))

include hreport

theorem run_held (hs : P.StoreHeld M s) {tree : Node} (ht : P.NodeResult s.extent tree) {v : Value}
    (h : M.run depth tree s = some (v, s')) :
    s.extent ≤ s'.extent ∧ P.StoreHeld M s' ∧ P.Result s'.extent v := by
  have hkeeps := keeps_tree hP depth hs ht
  unfold Machine.run at h
  dsimp only at h
  split at h
  · rename_i w t heval
    rw [heval] at hkeeps
    cases h
    exact ⟨hkeeps.1, hkeeps.2.1, (hkeeps.2.2.located hP _).located hP _⟩
  · rename_i alarm t heval
    rw [heval] at hkeeps
    cases h
    exact ⟨hkeeps.1, hkeeps.2.1, Result.fault (hreport _ _ hkeeps.2.2)⟩
  · simp at h

/-- The values of the trees of a forest follow the policy, and so does the store they leave. -/
theorem runAll_held : ∀ (forest : Forest) {s s' : Store σ} {vs : List Value}, P.StoreHeld M s →
    (∀ n ∈ forest, P.NodeResult s.extent n) → M.runAll depth forest s = some (vs, s') →
      s.extent ≤ s'.extent ∧ P.StoreHeld M s' ∧ ∀ v ∈ vs, P.Result s'.extent v
  | [], s, s', vs, hs, _, h => by
    simp only [Machine.runAll, Option.some.injEq, Prod.mk.injEq] at h
    obtain ⟨rfl, rfl⟩ := h
    exact ⟨le_rfl, hs, by simp⟩
  | tree :: trees, s, s', vs, hs, hforest, h => by
    rw [List.forall_mem_cons] at hforest
    simp only [Machine.runAll, Option.bind_eq_bind, Option.bind_eq_some_iff] at h
    obtain ⟨⟨v, t⟩, hrun, ⟨ws, u⟩, hrest, h⟩ := h
    cases h
    obtain ⟨hst, ht, hv⟩ := run_held hP hreport hs hforest.1 hrun
    obtain ⟨htu, hu, hws⟩ :=
      runAll_held trees ht (fun n hn => (hforest.2 n hn).mono hP hst) hrest
    exact ⟨le_trans hst htu, hu, List.forall_mem_cons.mpr ⟨hv.mono hP htu, hws⟩⟩

theorem load_held : ∀ (forest : Forest) {s s' : Store σ} {r : Option Fault}, P.StoreHeld M s →
    (∀ n ∈ forest, P.NodeResult s.extent n) → M.load depth forest s = some (r, s') →
      s.extent ≤ s'.extent ∧ P.StoreHeld M s' ∧ ∀ f, r = some f → P.reports f
  | [], s, s', r, hs, _, h => by
    simp only [Machine.load, Option.some.injEq, Prod.mk.injEq] at h
    obtain ⟨rfl, rfl⟩ := h
    exact ⟨le_rfl, hs, by simp⟩
  | tree :: trees, s, s', r, hs, hforest, h => by
    rw [List.forall_mem_cons] at hforest
    simp only [Machine.load, Option.bind_eq_bind, Option.bind_eq_some_iff] at h
    obtain ⟨⟨v, t⟩, hrun, h⟩ := h
    obtain ⟨hst, ht, hv⟩ := run_held hP hreport hs hforest.1 hrun
    dsimp only at h
    split at h
    · cases h
      refine ⟨hst, ht, fun f hf => ?_⟩
      rw [← Option.some.inj hf]
      exact reports_of_result hP hv
    · obtain ⟨htu, hu, hr⟩ := load_held trees ht (fun n hn => (hforest.2 n hn).mono hP hst) h
      exact ⟨le_trans hst htu, hu, hr⟩

end Runs

end Policy

/-- No alarm interrupts the evaluation of the trees of a forest, one after the other. -/
def Machine.Undisturbed {σ : Type} (M : Machine σ) (depth : Nat) : Forest → Store σ → Prop
  | [], _ => True
  | tree :: trees, s =>
    match (M.recur depth).eval [] tree s with
    | .done _ s => Undisturbed M depth trees s
    | .raised _ _ => False
    | .exhausted _ => True

/-- Under a policy that allows no alarms there are none. -/
theorem Policy.undisturbed {σ : Type} {P : Policy σ} {M : Machine σ} (hP : P.Admits M)
    (hcalm : ∀ alarm, ¬ P.raises alarm) (depth : Nat) :
    ∀ (forest : Forest) {s : Store σ}, P.StoreHeld M s →
      (∀ n ∈ forest, P.NodeResult s.extent n) → M.Undisturbed depth forest s
  | [], _, _, _ => trivial
  | tree :: trees, s, hs, hforest => by
    rw [List.forall_mem_cons] at hforest
    have hkeeps := keeps_tree hP depth hs hforest.1
    unfold Machine.Undisturbed
    cases heval : (M.recur depth).eval [] tree s with
    | done v t =>
      rw [heval] at hkeeps
      exact undisturbed hP hcalm depth trees hkeeps.2.1
        fun n hn => (hforest.2 n hn).mono hP hkeeps.1
    | raised alarm t =>
      rw [heval] at hkeeps
      exact hcalm alarm hkeeps.2.2
    | exhausted t => trivial

end LittleLisp
