/-
# Faults are terminal

A fault stops whatever it would be stored by, so a program that gets no help from the embedding
program never has one at hand: no name is bound to a fault and no argument, item or entry is one,
neither between two top-level trees nor at any point in between. A fault is seen as the value of
a tree only, and then it is the value of everything around that tree up to the top.

The points of a run are the moments at which the evaluation of a tree begins. Such a moment is
found from the outside: evaluation that is interrupted as soon as it comes there ends with the
alarm, and otherwise it never does. So what holds at every moment follows from what evaluation
keeps, by a policy that holds no faults and does not allow that alarm.

Key definitions: `Value.Faultless`, `Session.Unaided`, `Moment`, `Machine.Passes`, `Moment.Clean`,
`Policy.faultless`.
Key theorems: `Policy.momentHeld_of_passes`, `Session.faults_are_terminal`.
-/
import LittleLisp.Proofs.Policy.Session

namespace LittleLisp

variable {σ : Type}

/-- No fault occurs in the value, nor is it one. -/
def Value.Faultless (v : Value) : Prop := ∀ f, ¬ v.Has (.error f)

theorem Value.Faultless.isError {v : Value} (h : v.Faultless) : v.isError = false := by
  cases v with
  | error f => exact absurd .self (h f)
  | _ => rfl

/-- A value that neither is nor holds a fault or an object of the embedding program. -/
def Value.Harmless (v : Value) : Prop := v.Faultless ∧ ∀ o, ¬ v.Has (.object o)

/-- The sessions that a start with some configuration leads to when sources are evaluated or loaded,
the prelude among them or not, and harmless values are bound. The embedding program adds no function
and no transformer of its own. -/
inductive Session.Unaided (c : Config) (H : Host σ) (state : σ) : Session σ → Prop where
  | start (depth : Nat) : Unaided c H state { Session.start c H state with depth }
  | eval {s s' : Session σ} {source : Text} {vs : List Value} (h : Unaided c H state s)
      (hs : s.eval source = some (vs, s')) : Unaided c H state s'
  | load {s s' : Session σ} {source : Text} {r : Option Fault} (h : Unaided c H state s)
      (hs : s.load source = some (r, s')) : Unaided c H state s'
  | bind {s : Session σ} (h : Unaided c H state s) (name : Text) {v : Value} (hv : v.Harmless) :
      Unaided c H state (s.bind name v)

/-! ### Moments -/

/-- A point of a run: a tree is about to be evaluated. -/
structure Moment (σ : Type) where
  scope : Scope
  tree : Node
  store : Store σ

namespace Machine

variable (M : Machine σ) {m m' : Moment σ} {depth : Nat}

open Classical in
/-- Evaluation that is interrupted as soon as it comes to a moment. -/
noncomputable def breakAt (m : Moment σ) (alarm : Alarm) : Nat → Recur σ
  | 0 => ⟨fun _ _ => Action.exhausted, fun _ _ => Action.exhausted⟩
  | depth + 1 =>
    ⟨fun scope n s =>
        if Moment.mk scope n s = m then .raised alarm s
        else M.eval (breakAt m alarm depth) scope n s,
      fun ref args s => M.call (breakAt m alarm depth) ref args s⟩

/-- Evaluation from the moment `m` comes to the moment `m'`: there any alarm can interrupt it. -/
def Passes (depth : Nat) (m m' : Moment σ) : Prop :=
  ∀ alarm, (M.breakAt m' alarm depth).eval m.scope m.tree m.store = .raised alarm m'.store

variable {M}

theorem passes_self : M.Passes (depth + 1) m m := fun _ => if_pos rfl

/-- What is passed on the way is passed. -/
theorem passes_of_eval (h : ∀ alarm, M.eval (M.breakAt m' alarm depth) m.scope m.tree m.store =
    .raised alarm m'.store) : M.Passes (depth + 1) m m' := by
  intro alarm
  rw [breakAt]
  dsimp only
  split_ifs with hm
  · rw [← hm]
  · exact h alarm

/-- The head of a form is evaluated on the way, if it is no leaf. -/
theorem passes_head {scope : Scope} {head : Node} {s : Store σ} (hleaf : ∀ t, head ≠ .leaf t)
    (h : M.Passes depth ⟨scope, head, s⟩ m') :
    M.Passes (depth + 1) ⟨scope, .form [head], s⟩ m' := by
  refine passes_of_eval fun alarm => ?_
  have hhead := h alarm
  dsimp only at hhead ⊢
  rw [eval_form, form_compound M _ hleaf]
  simp only [arguments, bind, Action.bind, pure, Action.pure, hhead]

end Machine

/-! ### What a policy says about moments -/

namespace Policy

variable {P : Policy σ} {M : Machine σ} {m m' : Moment σ} {depth : Nat}

/-- A moment that follows the policy. -/
structure MomentHeld (P : Policy σ) (M : Machine σ) (m : Moment σ) : Prop where
  store : P.StoreHeld M m.store
  scope : P.ScopeHeld m.store.extent m.scope
  tree : P.NodeResult m.store.extent m.tree

/-- Interrupted at a moment that does not follow the policy, evaluation keeps it: it never comes
there. -/
theorem recurHeld_breakAt (hP : P.Admits M) (hm : ¬ P.MomentHeld M m) (alarm : Alarm) :
    ∀ depth, P.RecurHeld M (M.breakAt m alarm depth)
  | 0 => ⟨fun hs _ _ => ⟨le_rfl, hs, trivial⟩, fun hs _ _ => ⟨le_rfl, hs, trivial⟩⟩
  | depth + 1 => by
    have ih := recurHeld_breakAt hP hm alarm depth
    refine ⟨fun {s scope n} hs hscope hn => ?_, fun hs href hargs => keeps_call hP ih hs href hargs⟩
    have hother : Moment.mk scope n s ≠ m := by
      rintro rfl
      exact hm ⟨hs, hscope, hn⟩
    have hstep : (M.breakAt m alarm (depth + 1)).eval scope n s =
        M.eval (M.breakAt m alarm depth) scope n s := if_neg hother
    rw [hstep]
    exact keeps_eval hP ih hs hscope hn

/-- Evaluation that starts at a moment which follows the policy passes only such moments, if there
is an alarm that the policy does not allow. -/
theorem momentHeld_of_passes (hP : P.Admits M) {alarm : Alarm} (halarm : ¬ P.raises alarm)
    (hm : P.MomentHeld M m) (h : M.Passes depth m m') : P.MomentHeld M m' := by
  by_contra hm'
  have hkeeps := (recurHeld_breakAt hP hm' alarm depth).eval hm.store hm.scope hm.tree
  rw [h alarm] at hkeeps
  exact halarm hkeeps.2.2

/-! ### The policy without faults -/

/-- Everything but faults and objects may be held, and what interrupts an evaluation is no fault
raised on purpose. -/
def faultless (σ : Type) : Policy σ where
  holds _
    | .error _ => False
    | .object _ => False
    | _ => True
  reports _ := True
  raises alarm := ∃ message, alarm = .native message
  foreign := False
  states _ := True

/-- Every machine keeps the policy: nothing of the embedding program is ever met. -/
theorem faultless_admits (M : Machine σ) : (faultless σ).Admits M where
  mono _ h := h
  atom := trivial
  function _ := trivial
  transformer _ := trivial
  held h := absurd h id
  located _ _ := trivial
  internal _ := trivial
  eager h := absurd h id
  printing _ _ := ⟨_, rfl⟩
  missing _ _ := ⟨_, rfl⟩
  missingForm _ _ := ⟨_, rfl⟩
  native h := absurd h id
  refusal h := absurd h id
  failure h := absurd h id
  method h := absurd h id

theorem faultless_of_held {e : Extent} {v : Value} (h : (faultless σ).Held e v) : v.Faultless :=
  fun _ hf => (h.of_has hf).of_part rfl

theorem held_of_harmless {e : Extent} {v : Value} (h : v.Harmless) : (faultless σ).Held e v := by
  refine Value.every_of_has v fun w hw _ => ?_
  cases w with
  | error f => exact h.1 f hw
  | object o => exact h.2 o hw
  | _ => trivial

theorem faultless_of_result {e : Extent} {v : Value} (h : (faultless σ).Result e v) :
    v.isError = true ∨ v.Faultless := by
  rcases h with h | ⟨f, rfl, -⟩
  · exact Or.inr (faultless_of_held h)
  · exact Or.inl rfl

end Policy

/-! ### Clean moments -/

/-- The trees whose values are the arguments of a tree: the operands of a form, or a leaf itself. -/
def Node.operands : Node → List Node
  | .form (_ :: operands) => operands
  | .leaf t => [.leaf t]
  | _ => []

/-- Neither a name of the module nor a name captured by a function is bound to a fault, or to
anything that holds one. -/
structure Store.Clean (s : Store σ) : Prop where
  bindings : ∀ name v, s.find? name = some v → v.Faultless
  closures : ∀ f ∈ s.functions, ∀ k, f.body = .closure k →
    ∀ name v, k.scope.find? name = some v → v.Faultless

namespace Moment

/-- These are the arguments that are collected at the moment, however deep evaluation may nest. -/
def Collects (M : Machine σ) (m : Moment σ) (args : List Value) : Prop :=
  ∃ depth s, Machine.arguments (M.recur depth) m.scope m.tree.operands m.store = .done (.ok args) s

/-- At the moment no fault is at hand, and none comes to hand with the evaluation of its tree. -/
structure Clean (M : Machine σ) (m : Moment σ) : Prop where
  store : m.store.Clean
  locals : ∀ name v, m.scope.find? name = some v → v.Faultless
  /-- No argument is or holds a fault. -/
  arguments : ∀ args, m.Collects M args → ∀ v ∈ args, v.Faultless
  /-- So `error?` does not say of any that it is one, -/
  isError : ∀ args, m.Collects M args → ∀ self ref name (s s' : Store σ),
    s.functions[ref]? = some ⟨name, .builtin .isError⟩ →
      M.call self ref args s ≠ .done (.bool true) s'
  /-- and `error-kind` has nothing to say but `nil`, if it is used as it should be. -/
  errorKind : ∀ args, m.Collects M args → ∀ self ref name v (s s' : Store σ),
    s.functions[ref]? = some ⟨name, .builtin .errorKind⟩ →
      M.call self ref args s = .done v s' → v = .nil ∨ v.isError = true
  /-- The value of the tree is a fault, or none occurs in it. -/
  value : ∀ depth v s, (M.recur depth).eval m.scope m.tree m.store = .done v s →
    v.isError = true ∨ v.Faultless
  /-- However the evaluation ends, it leaves no fault behind. -/
  left : ∀ depth, ((M.recur depth).eval m.scope m.tree m.store).store.Clean

end Moment

/-! ### The functions that look at faults -/

namespace Builtin

variable {L : Legend} {args : List Value}

/-- A function of one argument is called with one argument, or ends with a fault. -/
theorem withArity_one (name : Text) (args : List Value) :
    (∃ v, args = [v]) ∨ ∃ f, ∀ k, withArity name args 1 (some 1) k = .ok (.error f) := by
  unfold withArity arityFault?
  split_ifs with h
  · exact Or.inr ⟨_, fun _ => rfl⟩
  · rw [not_or, Nat.not_lt] at h
    have hmost : args.length ≤ 1 := by simpa using h.2
    exact Or.inl (List.length_eq_one_iff.mp (Nat.le_antisymm hmost h.1))

/-- Asked about arguments without faults, `error?` says no or ends with a fault. -/
theorem apply_isError (h : ∀ v ∈ args, v.Faultless) :
    ∃ v, Builtin.isError.apply L args = .ok v ∧ (v = .bool false ∨ ∃ f, v = .error f) := by
  rcases withArity_one "error?" args with ⟨v, rfl⟩ | ⟨f, hf⟩
  · exact ⟨.bool v.isError, rfl, Or.inl (by rw [(h v List.mem_cons_self).isError])⟩
  · exact ⟨_, hf _, Or.inr ⟨f, rfl⟩⟩

/-- Asked about arguments without faults, `error-kind` gives `nil` or ends with a fault. -/
theorem apply_errorKind (h : ∀ v ∈ args, v.Faultless) :
    ∃ v, Builtin.errorKind.apply L args = .ok v ∧ (v = .nil ∨ ∃ f, v = .error f) := by
  rcases withArity_one "error-kind" args with ⟨v, rfl⟩ | ⟨f, hf⟩
  · refine ⟨.nil, ?_, Or.inl rfl⟩
    cases v with
    | error f => exact absurd .self (h (.error f) List.mem_cons_self f)
    | _ => rfl
  · exact ⟨_, hf _, Or.inr ⟨f, rfl⟩⟩

end Builtin

/-- A call of a built-in function that makes no list or map gives what the function gives. -/
theorem Machine.call_builtin (M : Machine σ) (self : Recur σ) {ref : Nat} {name : Text}
    {b : Builtin} {args : List Value} {v : Value} {s : Store σ} (hb : b.builds = false)
    (href : s.functions[ref]? = some ⟨name, .builtin b⟩)
    (hv : b.apply (s.legend M.host) args = .ok v) :
    M.call self ref args s = .done v.orNil s := by
  simp only [call, bind, Action.bind, Action.store, href, Action.ofExcept, hv, hb]
  rfl

namespace Policy

variable {M : Machine σ} {m : Moment σ}

theorem StoreHeld.clean {s : Store σ} (h : (faultless σ).StoreHeld M s) : s.Clean := by
  refine ⟨fun name v hv => faultless_of_held (h.bindings.find? hv), fun f hf k hk name v hv => ?_⟩
  have hbody := h.functions f hf
  rw [hk] at hbody
  exact faultless_of_held (hbody.2.find? hv)

theorem NodeResult.operands {P : Policy σ} {e : Extent} {n : Node} (h : P.NodeResult e n) :
    ∀ o ∈ n.operands, P.NodeResult e o := by
  rcases h with h | ⟨f, rfl, hf⟩
  · cases h with
    | absent => exact nofun
    | leaf ht =>
      intro o ho
      rw [List.mem_singleton.mp ho]
      exact Or.inl (.leaf ht)
    | @form ns hns =>
      cases ns with
      | nil => exact nofun
      | cons head operands => exact fun o ho => Or.inl (hns o (List.mem_cons_of_mem _ ho))
  · intro o ho
    rw [List.mem_singleton.mp ho]
    exact NodeResult.fault hf

theorem MomentHeld.collects (h : (faultless σ).MomentHeld M m) {args : List Value}
    (hargs : m.Collects M args) : ∀ v ∈ args, v.Faultless := by
  obtain ⟨depth, s, hs⟩ := hargs
  have hP := faultless_admits M
  have hkeeps := keeps_arguments hP (recurHeld_recur hP depth) m.tree.operands h.store h.scope
    h.tree.operands
  rw [hs] at hkeeps
  exact fun v hv => faultless_of_held (hkeeps.2.2 v hv)

/-- A moment that follows the policy is clean. -/
theorem MomentHeld.clean (h : (faultless σ).MomentHeld M m) : m.Clean M where
  store := h.store.clean
  locals name v hv := faultless_of_held (h.scope.find? hv)
  arguments args := h.collects
  isError args hargs self ref name s s' href := by
    obtain ⟨v, hv, hcases⟩ := Builtin.apply_isError (L := s.legend M.host) (h.collects hargs)
    rw [M.call_builtin self rfl href hv]
    rcases hcases with rfl | ⟨f, rfl⟩ <;> simp [Value.orNil]
  errorKind args hargs self ref name v s s' href hcall := by
    obtain ⟨w, hw, hcases⟩ := Builtin.apply_errorKind (L := s.legend M.host) (h.collects hargs)
    rw [M.call_builtin self rfl href hw] at hcall
    obtain ⟨rfl, -⟩ := Outcome.done.inj hcall
    rcases hcases with rfl | ⟨f, rfl⟩
    · exact Or.inl rfl
    · exact Or.inr rfl
  value depth v s hv := by
    have hkeeps := (recurHeld_recur (faultless_admits M) depth).eval h.store h.scope h.tree
    rw [hv] at hkeeps
    exact faultless_of_result hkeeps.2.2
  left depth :=
    ((recurHeld_recur (faultless_admits M) depth).eval h.store h.scope h.tree).2.1.clean

end Policy

/-! ### Sessions -/

namespace Session

open Policy

variable {c : Config} {H : Host σ} {state : σ} {s s' : Session σ}

theorem eval_faultless (hs : (faultless σ).StoreHeld s.machine s.store) {source : Text}
    {vs : List Value} (h : s.eval source = some (vs, s')) :
    (faultless σ).StoreHeld s'.machine s'.store ∧ ∀ v ∈ vs, v.isError = true ∨ v.Faultless := by
  have hP := faultless_admits s.machine
  simp only [eval, evalForest, Option.bind_eq_bind, Option.bind_eq_some_iff] at h
  obtain ⟨⟨ws, store⟩, hrun, h⟩ := h
  cases h
  obtain ⟨-, hstore, hvs⟩ := runAll_held hP (fun _ _ _ => trivial) _ hs
    (nodeResult_parse hP s source) hrun
  exact ⟨hstore, fun v hv => faultless_of_result (hvs v hv)⟩

theorem load_faultless (hs : (faultless σ).StoreHeld s.machine s.store) {source : Text}
    {r : Option Fault} (h : s.load source = some (r, s')) :
    (faultless σ).StoreHeld s'.machine s'.store := by
  have hP := faultless_admits s.machine
  simp only [load, Option.bind_eq_bind, Option.bind_eq_some_iff] at h
  obtain ⟨⟨q, store⟩, hrun, h⟩ := h
  cases h
  exact (Policy.load_held hP (fun _ _ _ => trivial) _ hs (nodeResult_parse hP s source) hrun).2.1

/-- Every step of an unaided session leaves a store that follows the policy. -/
theorem Unaided.storeHeld (h : s.Unaided c H state) :
    (faultless σ).StoreHeld s.machine s.store := by
  induction h with
  | start depth => exact storeHeld_withGlobals (faultless_admits _) rfl _ trivial
  | eval _ hs ih => exact (eval_faultless ih hs).1
  | load _ hs ih => exact load_faultless ih hs
  | bind _ name hv ih => exact ih.bind (held_of_harmless hv) name

/-- The evaluation of a source passes only moments that follow the policy. -/
theorem Unaided.momentHeld (h : s.Unaided c H state) {source : Text} {before after : Forest}
    {tree : Node} {vs : List Value} {store : Store σ}
    (hparse : s.parse source = before ++ tree :: after)
    (hrun : s.machine.runAll s.depth before s.store = some (vs, store)) {m : Moment σ}
    (hm : s.machine.Passes s.depth ⟨[], tree, store⟩ m) : (faultless σ).MomentHeld s.machine m := by
  have hP := faultless_admits s.machine
  have htrees : ∀ n ∈ before ++ tree :: after, (faultless σ).NodeResult s.store.extent n := by
    rw [← hparse]
    exact nodeResult_parse hP s source
  obtain ⟨hgrown, hstore, -⟩ := runAll_held hP (fun _ _ _ => trivial) before h.storeHeld
    (fun n hn => htrees n (List.mem_append_left _ hn)) hrun
  have hstart : (faultless σ).MomentHeld s.machine ⟨[], tree, store⟩ :=
    ⟨hstore, fun _ hb => absurd hb List.not_mem_nil, (htrees tree (by simp)).mono hP hgrown⟩
  -- the policy allows no alarm that is a fault, so such an alarm can mark the moment
  have halarm : ¬ (faultless σ).raises (.fault (.unplaced .native [])) := by
    rintro ⟨message, hmessage⟩
    simp at hmessage
  exact momentHeld_of_passes hP halarm hstart hm

/-- **Faults are terminal.** In a session that got no help from the embedding program, no name is
bound to anything that is or holds a fault, in the module or in what a function has captured. The
same is so at every moment of the evaluation of any source: wherever the evaluation of a tree
begins, neither the module, a local or captured scope nor an argument has a fault at hand, `error?`
does not find one, `error-kind` gives `nil` or ends with a fault, and the tree has a fault as its
value or something in which none occurs. So has each top-level tree. -/
theorem faults_are_terminal (h : s.Unaided c H state) :
    s.store.Clean ∧
    ∀ source : Text,
      (∀ before tree after vs store, s.parse source = before ++ tree :: after →
        s.machine.runAll s.depth before s.store = some (vs, store) →
          ∀ m, s.machine.Passes s.depth ⟨[], tree, store⟩ m → m.Clean s.machine) ∧
      ∀ vs s', s.eval source = some (vs, s') → ∀ v ∈ vs, v.isError = true ∨ v.Faultless := by
  have hs := h.storeHeld
  refine ⟨hs.clean, fun source => ⟨?_, fun vs s' heval => (eval_faultless hs heval).2⟩⟩
  intro before tree after vs store hparse hrun m hm
  exact (h.momentHeld hparse hrun hm).clean

/-- A function with an empty body is made and called at once, and then a name is met that stands for
nothing: the moment at which the function is made is passed and clean, and the values are `nil` and
a fault. -/
theorem faults_are_terminal_after_call :
    let s : Session Unit := { Session.start .default .none () with depth := 6 }
    let source : Text := "((fn ())) (y)"
    ∃ head tree vs s', s.parse source = [.form [head], tree] ∧
      s.machine.Passes s.depth ⟨[], .form [head], s.store⟩ ⟨[], head, s.store⟩ ∧
      (Moment.mk [] head s.store).Clean s.machine ∧
      s.eval source = some (vs, s') ∧ vs.map Value.isError = [false, true] ∧
      s'.store.Clean ∧ ∀ v ∈ vs, v.isError = true ∨ v.Faultless := by
  intro s source
  have hstart : s.Unaided .default .none () := .start 6
  have hshape : (s.parse source).map (fun n => n.children.map fun m => m.children.length) =
      [[2], [0]] := by decide +kernel
  obtain ⟨first, rest, hparse, hfirst, hrest⟩ := List.map_eq_cons_iff.mp hshape
  obtain ⟨tree, rfl, -⟩ := List.map_eq_singleton_iff.mp hrest
  obtain ⟨head, hhead, hlength⟩ := List.map_eq_singleton_iff.mp hfirst
  have hleaf (t : Token) : head ≠ .leaf t := by
    rintro rfl
    simp [Node.children] at hlength
  obtain rfl : first = .form [head] := by
    rw [← hhead]
    exact Node.eq_form_of_children (by simp [hhead])
  have hpasses : s.machine.Passes s.depth ⟨[], .form [head], s.store⟩ ⟨[], head, s.store⟩ :=
    Machine.passes_head hleaf Machine.passes_self
  have herrors : (s.eval source).map (fun r => r.1.map Value.isError) = some [false, true] := by
    decide +kernel
  obtain ⟨⟨vs, s'⟩, heval, hvs⟩ := Option.map_eq_some_iff.mp herrors
  obtain ⟨-, hall⟩ := faults_are_terminal hstart
  have hmoment := (hall source).1 [] _ [tree] [] s.store hparse rfl _ hpasses
  have hafter := (faults_are_terminal (hstart.eval heval)).1
  exact ⟨head, tree, vs, s', hparse, hpasses, hmoment, heval, hvs, hafter,
    (hall source).2 vs s' heval⟩

end Session

end LittleLisp
