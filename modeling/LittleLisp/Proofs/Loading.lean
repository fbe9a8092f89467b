/-
# Loading a source

There are three ways to go through the trees of a source. Evaluating it gives one value for each
tree, faults included. Loading it stops at the first fault. Running it as a file stops there too,
reports the fault and makes it the exit code. All three take the trees in order, and each tree
starts from the store that the one before it has left, so up to the first fault they do the same.

Key theorems: `Machine.load_append`, `Machine.runAll_cases`, `Console.runTrees_eq_load`,
`Session.load_agrees_with_eval_and_runFile`.
-/
import LittleLisp.Console

namespace LittleLisp

variable {σ : Type}

namespace Machine

variable {M : Machine σ} {depth : Nat} {tree : Node} {trees before : Forest} {v : Value}
  {vs ws : List Value} {f : Fault} {s t u : Store σ}

/-! ### All trees, one after the other -/

/-- A top-level tree leaves the store that its evaluation leaves, however that ends. -/
theorem store_of_run (h : M.run depth tree s = some (v, t)) :
    ((M.recur depth).eval [] tree s).store = t := by
  unfold run at h
  dsimp only at h
  split at h
  · rename_i heval
    cases h
    rw [heval]
    rfl
  · rename_i heval
    cases h
    rw [heval]
    rfl
  · cases h

theorem runAll_cons (h : M.run depth tree s = some (v, t))
    (hs : M.runAll depth trees t = some (vs, u)) :
    M.runAll depth (tree :: trees) s = some (v :: vs, u) := by
  simp [runAll, h, hs]

theorem runAll_cons_inv (h : M.runAll depth (tree :: trees) s = some (vs, u)) :
    ∃ v t ws, vs = v :: ws ∧ M.run depth tree s = some (v, t) ∧
      M.runAll depth trees t = some (ws, u) := by
  simp only [runAll, Option.bind_eq_bind, Option.bind_eq_some_iff] at h
  obtain ⟨⟨v, t⟩, hv, ⟨ws, u'⟩, hws, h⟩ := h
  cases h
  exact ⟨v, t, ws, rfl, hv, hws⟩

/-- One more tree after those of a forest. -/
theorem runAll_concat (h : M.runAll depth before s = some (ws, t))
    (hv : M.run depth tree t = some (v, u)) :
    M.runAll depth (before ++ [tree]) s = some (ws ++ [v], u) := by
  have hone : M.runAll depth [tree] t = some ([v], u) := runAll_cons hv rfl
  rw [runAll_append, h]
  simp [hone]

/-- No value of a forest is a fault, or one of them is the first. -/
theorem runAll_cases : ∀ {forest : Forest} {s u : Store σ} {vs : List Value},
    M.runAll depth forest s = some (vs, u) →
      (∀ v ∈ vs, v.isError = false) ∨
      ∃ before tree after ws f rest t t', forest = before ++ tree :: after ∧
        vs = ws ++ .error f :: rest ∧ (∀ w ∈ ws, w.isError = false) ∧
        M.runAll depth before s = some (ws, t) ∧ M.run depth tree t = some (.error f, t')
  | [], s, u, vs, h => by
    cases h
    exact Or.inl fun v hv => absurd hv List.not_mem_nil
  | tree :: trees, s, u, vs, h => by
    obtain ⟨v, t, ws, rfl, hv, hws⟩ := runAll_cons_inv h
    cases hfault : v.isError with
    | true =>
      cases v with
      | error f => exact Or.inr ⟨[], tree, trees, [], f, ws, s, t, rfl, rfl, nofun, rfl, hv⟩
      | _ => simp [Value.isError] at hfault
    | false =>
      rcases runAll_cases hws with hclean | ⟨before, node, after, xs, f, rest, t₁, t₂, htrees, hxs,
        hclean, hbefore, hnode⟩
      · exact Or.inl (List.forall_mem_cons.mpr ⟨hfault, hclean⟩)
      · have hall : ∀ w ∈ v :: xs, w.isError = false := List.forall_mem_cons.mpr ⟨hfault, hclean⟩
        refine Or.inr ⟨tree :: before, node, after, v :: xs, f, rest, t₁, t₂, ?_, ?_, hall,
          runAll_cons hv hbefore, hnode⟩
        · rw [htrees, List.cons_append]
        · rw [hxs, List.cons_append]

/-! ### Up to the first fault -/

theorem load_cons_value (h : M.run depth tree s = some (v, t)) (hv : v.isError = false)
    (trees : Forest) : M.load depth (tree :: trees) s = M.load depth trees t := by
  cases v with
  | error f => simp [Value.isError] at hv
  | _ => simp [load, h]

theorem load_cons_fault (h : M.run depth tree s = some (.error f, t)) (trees : Forest) :
    M.load depth (tree :: trees) s = some (some f, t) := by
  simp [load, h]

/-- Loading starts with the first tree and stops there, or goes on with the others. -/
theorem load_cons_inv {r : Option Fault} (h : M.load depth (tree :: trees) s = some (r, u)) :
    ∃ v t, M.run depth tree s = some (v, t) ∧ (u = t ∨ M.load depth trees t = some (r, u)) := by
  simp only [load, Option.bind_eq_bind, Option.bind_eq_some_iff] at h
  obtain ⟨⟨v, t⟩, hv, h⟩ := h
  refine ⟨v, t, hv, ?_⟩
  dsimp only at h
  split at h
  · cases h
    exact Or.inl rfl
  · exact Or.inr h

/-- Trees without a fault are passed over, and loading goes on where they end. -/
theorem load_append : ∀ {before : Forest} {s t : Store σ} {ws : List Value},
    M.runAll depth before s = some (ws, t) → (∀ w ∈ ws, w.isError = false) →
      ∀ rest : Forest, M.load depth (before ++ rest) s = M.load depth rest t
  | [], s, t, ws, h, _, rest => by
    cases h
    rfl
  | tree :: trees, s, t, ws, h, hclean, rest => by
    obtain ⟨v, u, vs, rfl, hv, hvs⟩ := runAll_cons_inv h
    rw [List.forall_mem_cons] at hclean
    rw [List.cons_append, load_cons_value hv hclean.1]
    exact load_append hvs hclean.2 rest

theorem load_of_no_fault {forest : Forest} (h : M.runAll depth forest s = some (vs, t))
    (hclean : ∀ v ∈ vs, v.isError = false) : M.load depth forest s = some (none, t) := by
  have hload := load_append h hclean []
  rwa [List.append_nil] at hload

/-- Loading ends with the first fault, whatever comes after it. -/
theorem load_of_first_fault (h : M.runAll depth before s = some (ws, t))
    (hclean : ∀ w ∈ ws, w.isError = false) (hf : M.run depth tree t = some (.error f, u))
    (after : Forest) : M.load depth (before ++ tree :: after) s = some (some f, u) := by
  rw [load_append h hclean, load_cons_fault hf]

end Machine

/-! ### Files -/

namespace Console

/-- The run of a file that loading would end like this. -/
def FileRun.ofLoad : Option Fault × Session σ → FileRun σ
  | (none, s) => ⟨0, [], s⟩
  | (some f, s) => ⟨1, f.text ++ ("\n" : Text), s⟩

/-- Running the trees of a file is loading them, with a report of how it ended. -/
theorem runTrees_eq_load : ∀ (forest : Forest) (s : Session σ),
    runTrees forest s =
      (s.machine.load s.depth forest s.store).map fun r => .ofLoad (r.1, { s with store := r.2 })
  | [], _ => rfl
  | tree :: trees, s => by
    simp only [runTrees, Machine.load]
    cases s.machine.run s.depth tree s.store with
    | none => rfl
    | some r =>
      obtain ⟨v, t⟩ := r
      cases v with
      | error f => rfl
      | _ => exact runTrees_eq_load trees { s with store := t }

theorem runFile_eq_load (s : Session σ) (path source : Text) :
    runFile s path (.file source) = (s.load source).map .ofLoad := by
  change runTrees (s.parse source) s = _
  rw [runTrees_eq_load, Session.load]
  cases s.machine.load s.depth (s.parse source) s.store <;> rfl

end Console

/-! ### The three together -/

namespace Session

variable {s s' : Session σ} {source : Text} {vs : List Value}

theorem evalForest_eq_some {forest : Forest} :
    s.evalForest forest = some (vs, s') ↔
      ∃ store, s.machine.runAll s.depth forest s.store = some (vs, store) ∧
        { s with store } = s' := by
  unfold evalForest
  cases s.machine.runAll s.depth forest s.store with
  | none => simp
  | some r =>
    obtain ⟨ws, t⟩ := r
    simp [and_assoc]

theorem load_eq_some {r : Option Fault} :
    s.load source = some (r, s') ↔
      ∃ store, s.machine.load s.depth (s.parse source) s.store = some (r, store) ∧
        { s with store } = s' := by
  unfold load
  cases s.machine.load s.depth (s.parse source) s.store with
  | none => simp
  | some q =>
    obtain ⟨f, t⟩ := q
    simp [and_assoc]

/-- **Loading, running and evaluating agree.** Take any session and any source whose trees all come
to an end when it is evaluated. Then loading it comes to an end too. It ends without a fault exactly
if no value is one, and then in the session that evaluating ends in. Otherwise it ends with the
first fault among the values; the session is then the one after the trees up to and including the
one at fault, and the trees after that make no difference, even if others took their place.
Running the source as a file ends in the same session as loading it: with exit code 0 and nothing
reported if there is no fault, else with exit code 1 and this very fault reported. -/
theorem load_agrees_with_eval_and_runFile (s : Session σ) (source path : Text) {vs : List Value}
    {s' : Session σ} (h : s.eval source = some (vs, s')) :
    ∃ r t, s.load source = some (r, t) ∧
      (r = none ↔ ∀ v ∈ vs, v.isError = false) ∧
      (r = none → t = s') ∧
      (∀ f, r = some f → ∃ before tree after ws rest,
        s.parse source = before ++ tree :: after ∧
        vs = ws ++ .error f :: rest ∧ (∀ w ∈ ws, w.isError = false) ∧
        s.evalForest (before ++ [tree]) = some (ws ++ [.error f], t) ∧
        ∀ others, s.machine.load s.depth (before ++ tree :: others) s.store =
          some (some f, t.store)) ∧
      Console.runFile s path (.file source) =
        some (match r with
          | none => ⟨0, [], t⟩
          | some f => ⟨1, f.text ++ ("\n" : Text), t⟩) := by
  obtain ⟨store, hrun, rfl⟩ := evalForest_eq_some.mp h
  rcases Machine.runAll_cases hrun with hclean | ⟨before, tree, after, ws, f, rest, t, t', htrees,
    hvs, hclean, hbefore, htree⟩
  · have hload := load_eq_some.mpr ⟨_, Machine.load_of_no_fault hrun hclean, rfl⟩
    refine ⟨none, _, hload, ⟨fun _ => hclean, fun _ => rfl⟩, fun _ => rfl, nofun, ?_⟩
    rw [Console.runFile_eq_load, hload]
    rfl
  · have hfirst := Machine.load_of_first_fault hbefore hclean htree
    have hload : s.load source = some (some f, { s with store := t' }) :=
      load_eq_some.mpr ⟨_, by rw [htrees, hfirst], rfl⟩
    have hfault : ¬ ∀ v ∈ vs, v.isError = false := fun hno => by
      have hf : (Value.error f).isError = false := hno _ (by simp [hvs])
      simp [Value.isError] at hf
    refine ⟨some f, _, hload, ⟨nofun, fun hno => absurd hno hfault⟩, nofun, fun g hg => ?_, ?_⟩
    · cases hg
      have hprefix := evalForest_eq_some.mpr ⟨t', Machine.runAll_concat hbefore htree, rfl⟩
      exact ⟨before, tree, after, ws, rest, htrees, hvs, hclean, hprefix, hfirst⟩
    · rw [Console.runFile_eq_load, hload]
      rfl

/-- The source `(def x :a) (y) (def z :b)` in a fresh session: loading it stops at `(y)`, with `x`
defined and `z` not, and a file with this text ends with exit code 1. -/
theorem load_agrees_on_unbound_head :
    let s : Session Transcript := { Session.start .default Console.host .empty with depth := 6 }
    let source : Text := "(def x :a) (y) (def z :b)"
    ∃ vs s', s.eval source = some (vs, s') ∧ vs.map Value.isError = [false, true, false] ∧
      ∃ f t, s.load source = some (some f, t) ∧ (t.store.find? "x").isSome = true ∧
        (t.store.find? "z").isSome = false ∧
        Console.runFile s "main" (.file source) = some ⟨1, f.text ++ ("\n" : Text), t⟩ := by
  intro s source
  have hsome : (s.eval source).isSome = true := by decide +kernel
  obtain ⟨⟨vs, s'⟩, heval⟩ := Option.isSome_iff_exists.mp hsome
  have herrors : (s.eval source).map (fun r => r.1.map Value.isError) =
      some [false, true, false] := by decide +kernel
  have hbound : (s.load source).map (fun r => ((r.2.store.find? "x").isSome,
      (r.2.store.find? "z").isSome)) = some (true, false) := by decide +kernel
  have hvs : vs.map Value.isError = [false, true, false] := by simpa [heval] using herrors
  obtain ⟨r, t, hload, hnone, -, -, hrun⟩ := load_agrees_with_eval_and_runFile s source "main" heval
  rw [hload] at hbound
  cases r with
  | none =>
    have hclean : ∀ b ∈ vs.map Value.isError, b = false := by simpa using hnone.mp rfl
    rw [hvs] at hclean
    exact absurd (hclean true (by simp)) (by decide)
  | some f =>
    have hxz : (t.store.find? "x").isSome = true ∧ (t.store.find? "z").isSome = false := by
      simpa using hbound
    exact ⟨vs, s', heval, hvs, f, t, hload, hxz.1, hxz.2, hrun⟩

end Session

end LittleLisp
