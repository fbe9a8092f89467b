/-
# Where faults come from

A fault should say where it comes from. A call, a look-up and a method call that go wrong have the
position of their form, a name that stands for nothing has its own, and so has what is wrong with
the operands of a special form. But some faults come to light without a position, and whatever is
around them passes them on as they are, until something around that has a position of its own to
give: a call, or the top level. Then they seem to come from there.

There are just two sources of such faults: a form that is refused for a part of its operands that
has no word in it, the whole of them included if there are none; and a tree without any word. They
are passed on by a form whose argument, head, test or replacement ends with one.

Key definitions: `Machine.Transforms`, `Machine.Stray`, `Moment.Regular`.
Key theorems: `Machine.Stray.eval`, `Machine.stray_of_eval`, `Session.fault_unplaced_iff_stray`.
-/
import LittleLisp.Proofs.Attribution.Refusal
import LittleLisp.Proofs.Definitions
import LittleLisp.Proofs.Provenance.Session

namespace LittleLisp

variable {σ : Type}

/-! ### Faults without a position -/

namespace Machine

/-- A leaf in head position stands for the transformer. -/
def Transforms (M : Machine σ) (scope : Scope) (s : Store σ) (head : Token) (x : Transformer) :
    Prop :=
  ∃ ref, M.headValue scope head s = .ok (.transformer ref) ∧ s.transformers[ref]? = some x

/-- How the tree of a moment comes to have the fault as its value while nothing on the way has a
position for it. Evaluation may nest as deep as the number says. -/
inductive Stray (M : Machine σ) (f : Fault) : Nat → Moment σ → Prop where
  /-- There is no word in the tree, which is not the mere report of the fault. -/
  | wordless {depth : Nat} {m : Moment σ} {t : Store σ}
      (htree : m.tree.position.isUnknown = true) (hreport : m.tree ≠ .ofFault f)
      (hf : f.pos.isUnknown = true)
      (h : (M.recur depth).eval m.scope m.tree m.store = .done (.error f) t) : Stray M f depth m
  /-- The form is refused, and a part of its operands has no word in it. -/
  | refused {depth : Nat} {scope : Scope} {head : Token} {operands : List Node} {s : Store σ}
      {x : Transformer} (hx : M.Transforms scope s head x)
      (hf : f.pos.isUnknown = true) (hblank : (Node.form operands).HasBlank)
      (h : M.Rejects x operands scope s f) :
      Stray M f (depth + 2) ⟨scope, .form (.leaf head :: operands), s⟩
  /-- The test of a conditional ends with the fault. -/
  | test {depth : Nat} {scope : Scope} {head : Token} {test : Node} {branches : List Node}
      {s : Store σ} {x : Transformer} (hx : M.Transforms scope s head x)
      (hif : x.expander = .special .conditional)
      (hbranches : branches.length = 1 ∨ branches.length = 2)
      (h : Stray M f (depth + 1) ⟨scope, test, s⟩) :
      Stray M f (depth + 2) ⟨scope, .form (.leaf head :: test :: branches), s⟩
  /-- What takes the place of the form ends with the fault. -/
  | replaced {depth : Nat} {scope : Scope} {head : Token} {operands : List Node} {s s₁ : Store σ}
      {x : Transformer} {n : Node} (hx : M.Transforms scope s head x)
      (hn : expand M (M.recur depth) x operands scope s = .done n s₁)
      (h : Stray M f depth ⟨scope, n, s₁⟩) :
      Stray M f (depth + 1) ⟨scope, .form (.leaf head :: operands), s⟩
  /-- An argument ends with the fault, and it is the first one that fails. -/
  | argument {depth : Nat} {scope : Scope} {head n : Node} (pre : List Node) {post : List Node}
      {vs : List Value} {s s₁ : Store σ} (hhead : M.PlainHead scope s head)
      (hpre : Collected (M.recur depth) scope pre s vs s₁) (hn : ∀ t, n ≠ .leaf t)
      (h : Stray M f depth ⟨scope, n, s₁⟩) :
      Stray M f (depth + 1) ⟨scope, .form (head :: (pre ++ n :: post)), s⟩
  /-- All arguments give a value, and then the head ends with the fault. -/
  | head {depth : Nat} {scope : Scope} {head : Node} {operands : List Node} {vs : List Value}
      {s s₁ : Store σ} (hhead : ∀ t, head ≠ .leaf t)
      (hoperands : Collected (M.recur depth) scope operands s vs s₁)
      (h : Stray M f depth ⟨scope, head, s₁⟩) :
      Stray M f (depth + 1) ⟨scope, .form (head :: operands), s⟩

variable {M : Machine σ} {self : Recur σ} {scope : Scope} {s t : Store σ} {f : Fault} {depth : Nat}

/-- A form whose head stands for a transformer is replaced. -/
theorem Transforms.form {head : Token} {x : Transformer} (hx : M.Transforms scope s head x)
    (operands : List Node) :
    form M self scope (.leaf head) operands s =
      (do
        let n ← expand M self x operands scope
        self.eval scope n) s := by
  obtain ⟨ref, hvalue, href⟩ := hx
  rw [form_transformer M self hvalue, href]

theorem Transforms.eval {head : Token} {x : Transformer} (hx : M.Transforms scope s head x)
    {operands : List Node} {n : Node} (hn : expand M self x operands scope s = .done n t) :
    M.eval self scope (.form (.leaf head :: operands)) s = self.eval scope n t := by
  change Machine.form M self scope (.leaf head) operands s = _
  rw [hx.form]
  simp only [bind, Action.bind, hn]

theorem expandConditional_of_test {test : Node} {branches : List Node}
    (hbranches : branches.length = 1 ∨ branches.length = 2)
    (h : self.eval scope test s = .done (.error f) t) :
    expandConditional self scope (test :: branches) s = .done (.ofFault f) t := by
  rcases hbranches with hone | htwo
  · obtain ⟨yes, rfl⟩ := List.length_eq_one_iff.mp hone
    simp only [expandConditional_eq, bind, Action.bind, h]
    rfl
  · obtain ⟨yes, no, rfl⟩ := List.length_eq_two.mp htwo
    simp only [expandConditional_eq, bind, Action.bind, h]
    rfl

/-- A stray fault is what the tree evaluates to, and it has no position. -/
theorem Stray.eval {m : Moment σ} (h : M.Stray f depth m) :
    (∃ t, (M.recur depth).eval m.scope m.tree m.store = .done (.error f) t) ∧
      f.pos.isUnknown = true := by
  induction h with
  | wordless _ _ hf h => exact ⟨⟨_, h⟩, hf⟩
  | refused hx hf _ h =>
    exact ⟨⟨_, (hx.eval (h _)).trans (eval_ofFault _ f _)⟩, hf⟩
  | @test depth scope head test branches s x hx hif hbranches _ ih =>
    obtain ⟨⟨t, ht⟩, hf⟩ := ih
    have hexpand : expand M (M.recur (depth + 1)) x (test :: branches) scope s =
        .done (.ofFault f) t := by
      simp only [expand, hif]
      exact expandConditional_of_test hbranches ht
    exact ⟨⟨_, (hx.eval hexpand).trans (eval_ofFault _ f _)⟩, hf⟩
  | replaced hx hn _ ih =>
    obtain ⟨⟨t, ht⟩, hf⟩ := ih
    exact ⟨⟨t, (hx.eval hn).trans ht⟩, hf⟩
  | argument _ hhead hpre hn _ ih =>
    obtain ⟨⟨t, ht⟩, hf⟩ := ih
    exact ⟨⟨t, form_of_fails hhead hpre (.tree hn ht) _⟩, hf⟩
  | head hhead hoperands _ ih =>
    obtain ⟨⟨t, ht⟩, hf⟩ := ih
    exact ⟨⟨t, form_of_failing_head hhead hoperands ht⟩, hf⟩

end Machine

/-! ### Results with a position -/

/-- The fault that an evaluation ends with. -/
def Outcome.fault? : Outcome σ Value → Option Fault
  | .done (.error f) _ => some f
  | _ => none

theorem Outcome.eq_done_of_fault? {o : Outcome σ Value} {f : Fault} (h : o.fault? = some f) :
    ∃ t, o = .done (.error f) t := by
  unfold fault? at h
  split at h
  · cases h
    exact ⟨_, rfl⟩
  · simp at h

theorem Fault.known_located (f : Fault) {p : Position} (hp : p.isUnknown = false) :
    (f.located p).pos.isUnknown = false := by
  cases hf : f.pos.isUnknown <;> simp [located, Position.orElse, hf, hp]

namespace Action

/-- If the action ends with a fault, the fault has a position. -/
def Sites (x : Action σ Value) : Prop := ∀ s f t, x s = .done (.error f) t → f.pos.isUnknown = false

variable {α : Type}

theorem sites_bind {x : Action σ α} {k : α → Action σ Value} (hk : ∀ a, Sites (k a)) :
    Sites (x >>= k) := by
  intro s f t h
  obtain ⟨a, u, -, h⟩ := bind_eq_done.mp h
  exact hk a u f t h

theorem sites_placed {kind : FaultKind} {p : Position} (hp : p.isUnknown = false)
    (message : List Text) : Sites (pure (.error (.placed kind p message)) : Action σ Value) := by
  intro s f t h
  cases h
  exact hp

theorem sites_located (v : Value) {p : Position} (hp : p.isUnknown = false) :
    Sites (pure (v.located p) : Action σ Value) := by
  intro s f t h
  have hv : v.located p = .error f := (Outcome.done.inj h).1
  cases v with
  | error g =>
    cases hv
    exact g.known_located hp
  | _ => simp [Value.located] at hv

end Action

namespace Machine

open LittleLisp.Action

variable {M : Machine σ} {self : Recur σ} {p : Position} (hp : p.isUnknown = false)

include hp

theorem sites_getKeyword (keyword : Value) (args : List Value) :
    Sites (getKeyword M self keyword args p) := by
  rw [getKeyword_eq]
  split
  · exact sites_bind fun v => sites_located v hp
  · exact sites_bind fun v => sites_located v hp
  · exact sites_bind fun _ => sites_placed hp _

theorem sites_methodCall (t : Token) (args : List Value) :
    Sites (methodCall M self t args p) := by
  rw [methodCall_eq]
  dsimp only
  split
  · exact sites_placed hp _
  · refine sites_bind fun r => ?_
    split
    · exact sites_located _ hp
    · exact sites_bind fun _ => sites_placed hp _
  · exact sites_bind fun _ => sites_bind fun _ => sites_placed hp _

theorem sites_apply {v : Value} (hv : v.isError = false) (args : List Value) :
    Sites (apply M self v args p) := by
  unfold apply
  split
  · simp [Value.isError] at hv
  · exact sites_getKeyword hp _ args
  · exact sites_bind fun v => sites_located v hp
  · exact sites_bind fun _ => sites_bind fun _ => sites_placed hp _

/-- Whatever is applied for a form, a fault that comes of it has a position if the form has one. -/
theorem sites_applyLeaf (t : Token) {v : Value} (hv : v.isError = false) (args : List Value) :
    Sites (applyLeaf M self t v args p) := by
  unfold applyLeaf
  split_ifs
  · exact sites_getKeyword hp _ args
  · exact sites_methodCall hp t args
  · exact sites_apply hp hv args

end Machine

/-! ### Regular moments -/

/-- At the moment no faults are at hand, and words are in their place. -/
structure Moment.Regular (M : Machine σ) (m : Moment σ) : Prop where
  held : (Policy.faultless σ).MomentHeld M m
  placed : m.MadeOf Token.Placed

namespace Moment

open Machine Policy

variable {M : Machine σ} {scope : Scope} {s s₁ : Store σ} {ns pre : List Node} {n : Node}
  {depth : Nat}

theorem Regular.item_held (h : Regular M ⟨scope, .form ns, s⟩) (hn : n ∈ ns) :
    (faultless σ).NodeHeld s.extent n := by
  rcases h.held.tree with hform | ⟨f, hf, -⟩
  · cases hform with
    | form hns => exact hns n hn
  · simp [Node.ofFault] at hf

theorem Regular.item_placed (h : Regular M ⟨scope, .form ns, s⟩) (hn : n ∈ ns) :
    n.MadeOf Token.Placed := Node.madeOf_form.mp h.placed.tree n hn

theorem Regular.item (h : Regular M ⟨scope, .form ns, s⟩) (hn : n ∈ ns) :
    Regular M ⟨scope, n, s⟩ :=
  ⟨⟨h.held.store, h.held.scope, Or.inl (h.item_held hn)⟩, ⟨h.placed.store, h.item_placed hn⟩⟩

/-- After some arguments of a form were collected, the moments of its items are regular too. -/
theorem Regular.collected (h : Regular M ⟨scope, .form ns, s⟩) (hpre : ∀ n ∈ pre, n ∈ ns)
    {vs : List Value} (hvs : Collected (M.recur depth) scope pre s vs s₁) (hn : n ∈ ns) :
    Regular M ⟨scope, n, s₁⟩ := by
  have hP := faultless_admits M
  have hkeeps := keeps_arguments hP (recurHeld_recur hP depth) pre h.held.store h.held.scope
    fun n hn => Or.inl (h.item_held (hpre n hn))
  have halike : Action.Alike Token.Placed (fun _ => True) (arguments (M.recur depth) scope pre) _ :=
    alike_arguments (alike_recur Token.placed_enduring depth) pre
      fun n hn => h.item_placed (hpre n hn)
  have hplaced := (halike s h.placed.store).2.1
  rw [arguments_of_collected hvs] at hkeeps hplaced
  obtain ⟨hle, hstore, -⟩ := hkeeps
  exact ⟨⟨hstore, h.held.scope.mono hP hle, Or.inl ((h.item_held hn).mono hP hle)⟩,
    ⟨hplaced, h.item_placed hn⟩⟩

/-- The moment at which a replacement is evaluated is regular too. -/
theorem Regular.expanded {head : Token} {operands : List Node} {x : Transformer}
    (h : Regular M ⟨scope, .form (.leaf head :: operands), s⟩)
    (hx : M.Transforms scope s head x)
    (hn : expand M (M.recur depth) x operands scope s = .done n s₁) :
    Regular M ⟨scope, n, s₁⟩ := by
  have hP := faultless_admits M
  obtain ⟨ref, -, href⟩ := hx
  have hmem := Array.mem_of_getElem? href
  have hkeeps := keeps_expand hP (recurHeld_recur hP depth) h.held.store
    (h.held.store.transformers x hmem) (fun n hn => h.item_held (List.mem_cons_of_mem _ hn))
    h.held.scope
  have halike : Action.Alike Token.Placed (Node.MadeOf Token.Placed)
      (expand M (M.recur depth) x operands scope) _ :=
    alike_expand (alike_recur Token.placed_enduring depth) Token.placed_enduring
      (fun n hn => h.item_placed (List.mem_cons_of_mem _ hn)) (h.placed.store.transformers x hmem)
  obtain ⟨-, hplaced, htree⟩ := halike s h.placed.store
  rw [hn] at hkeeps hplaced
  obtain ⟨hle, hstore, hresult⟩ := hkeeps
  exact ⟨⟨hstore, h.held.scope.mono hP hle, hresult⟩, ⟨hplaced, htree n s₁ hn⟩⟩

end Moment

/-! ### Unplaced faults are stray -/

namespace Machine

open Moment (Regular)
open Policy (faultless faultless_of_held faultless_admits)

variable {M : Machine σ} {self : Recur σ} {scope : Scope} {s t : Store σ} {f : Fault} {depth : Nat}
  {operands : List Node}

/-- Of arguments in their place only trees fail without a position. -/
theorem Fails.tree_of_unplaced {e : Extent} {n : Node} (h : Fails self scope n s f t)
    (hheld : (faultless σ).NodeHeld e n) (hplaced : n.MadeOf Token.Placed)
    (hf : f.pos.isUnknown = true) :
    (∀ t, n ≠ .leaf t) ∧ self.eval scope n s = .done (.error f) t := by
  cases h with
  | unbound ht hl hm hv =>
    have hknown := (Node.madeOf_leaf.mp hplaced).identifier ht
    simp [notFound, Fault.placed, hknown] at hf
  | report ht hvalue =>
    have hvalue' := isError_of_held_leaf hheld
    simp [hvalue, Value.isError] at hvalue'
  | invalid ht hvalue =>
    obtain ⟨g, hg⟩ := (Node.madeOf_leaf.mp hplaced).fault ht
    exact absurd hg (hvalue g)
  | tree hn h => exact ⟨hn, h⟩

/-- If collecting the arguments of a form ends with a fault that has no position, then the first one
to fail is a tree with that fault as its value. -/
theorem arguments_unplaced {head : Node} (hm : Regular M ⟨scope, .form (head :: operands), s⟩)
    (h : arguments (M.recur depth) scope operands s = .done (.error f) t)
    (hf : f.pos.isUnknown = true) :
    ∃ pre n post vs s₁, operands = pre ++ n :: post ∧
      Collected (M.recur depth) scope pre s vs s₁ ∧ Regular M ⟨scope, n, s₁⟩ ∧
      (∀ t, n ≠ .leaf t) ∧ (M.recur depth).eval scope n s₁ = .done (.error f) t := by
  rcases arguments_cases h with ⟨vs, hvs, -⟩ | ⟨pre, n, post, vs, g, s₁, hg, rfl, hpre, hn⟩
  · simp at hvs
  · cases hg
    have hmem : n ∈ head :: (pre ++ n :: post) := by simp
    have hafter := hm.collected (fun k hk => by simp [hk]) hpre hmem
    obtain ⟨htree, heval⟩ := hn.tree_of_unplaced (hm.item_held hmem) (hm.item_placed hmem) hf
    exact ⟨pre, n, post, vs, s₁, rfl, hpre, hafter, htree, heval⟩

/-- What a leaf in head position stands for is no fault, and a name that stands for nothing has a
position. -/
theorem headValue_cases {head : Token} (hm : Regular M ⟨scope, .form (.leaf head :: operands), s⟩) :
    (∃ v, M.headValue scope head s = .ok v ∧ v.isError = false) ∨
      ∃ g, M.headValue scope head s = .error g ∧ g.pos.isUnknown = false := by
  have hmem : Node.leaf head ∈ Node.leaf head :: operands := List.mem_cons_self
  have hheld := hm.item_held hmem
  have hplaced := Node.madeOf_leaf.mp (hm.item_placed hmem)
  cases hvalue : M.headValue scope head s with
  | ok v =>
    refine Or.inl ⟨v, rfl, ?_⟩
    cases hheld with
    | leaf ht =>
      have hcheck := Policy.checks_headValue (faultless_admits M) hm.held.store hm.held.scope ht
      rw [hvalue] at hcheck
      rcases hcheck with rfl | hv
      · rfl
      · exact (faultless_of_held hv).isError
  | error g =>
    refine Or.inr ⟨g, rfl, ?_⟩
    unfold headValue at hvalue
    split_ifs at hvalue with hself hid
    obtain ⟨-, -, -, rfl⟩ := resolve_error_iff.mp hvalue
    exact hplaced.identifier hid

/-- A leaf with a position never ends with a fault without one. -/
theorem known_of_leaf {u : Token} (hm : Regular M ⟨scope, .leaf u, s⟩)
    (hpos : u.pos.isUnknown = false) (h : M.eval self scope (.leaf u) s = .done (.error f) t) :
    f.pos.isUnknown = false := by
  change form M self scope (.leaf ⟨.literal, u.pos, [], .function Store.identityRef⟩) [.leaf u] s =
    .done (.error f) t at h
  rw [form_plain M self (headValue_ofFunction scope _ u.pos s) (by simp)] at h
  obtain ⟨x, v, hargs, h⟩ := Action.bind_eq_done.mp h
  rcases arguments_cases hargs with ⟨vs, rfl, -⟩ | ⟨pre, n, post, vs, g, s₁, rfl, hns, hpre, hfails⟩
  · have hp : (Node.form [.leaf ⟨.literal, u.pos, [], .function Store.identityRef⟩,
        .leaf u]).position.isUnknown = false :=
      Node.known_positionOfAll ⟨.leaf u, by simp, hpos⟩
    exact sites_applyLeaf hp _ rfl vs v f t h
  · obtain ⟨hg, rfl⟩ := Outcome.done.inj h
    cases hg
    obtain ⟨rfl, rfl, rfl⟩ : pre = [] ∧ n = .leaf u ∧ post = [] := by
      cases pre with
      | nil => simpa using hns.symm
      | cons k ks => simp at hns
    cases hfails with
    | unbound ht hl hm' hv => exact hpos
    | invalid ht hvalue => exact hpos
    | tree hn _ => exact absurd rfl (hn u)
    | report ht hvalue =>
      rcases hm.held.tree with hheld | ⟨g, hg, -⟩
      · have hvalue' := isError_of_held_leaf hheld
        simp [hvalue, Value.isError] at hvalue'
      · have hu : u = ⟨.error, g.pos, g.message, .error g⟩ := Node.leaf.inj hg
        rw [hu] at hpos hvalue
        cases hvalue
        exact hpos

section Steps

variable (ih : ∀ {m : Moment σ} {t : Store σ}, Regular M m →
  (M.recur depth).eval m.scope m.tree m.store = .done (.error f) t → m.tree ≠ .ofFault f →
    M.Stray f depth m)

include ih

theorem stray_of_arguments {head : Node} (hm : Regular M ⟨scope, .form (head :: operands), s⟩)
    (hhead : M.PlainHead scope s head) (hf : f.pos.isUnknown = true)
    (h : arguments (M.recur depth) scope operands s = .done (.error f) t) :
    M.Stray f (depth + 1) ⟨scope, .form (head :: operands), s⟩ := by
  obtain ⟨pre, n, post, vs, s₁, rfl, hpre, hafter, hn, heval⟩ := arguments_unplaced hm h hf
  exact .argument pre hhead hpre hn (ih hafter heval (hn _))

theorem stray_of_replacement {head : Token} {x : Transformer}
    (hm : Regular M ⟨scope, .form (.leaf head :: operands), s⟩)
    (hx : M.Transforms scope s head x) (hf : f.pos.isUnknown = true)
    (h : form M (M.recur depth) scope (.leaf head) operands s = .done (.error f) t) :
    M.Stray f (depth + 1) ⟨scope, .form (.leaf head :: operands), s⟩ := by
  rw [hx.form] at h
  obtain ⟨n, u, hn, heval⟩ := Action.bind_eq_done.mp h
  by_cases hreport : n = .ofFault f
  · subst hreport
    obtain ⟨ref, -, href⟩ := id hx
    have hheld := hm.held.store.transformers x (Array.mem_of_getElem? href)
    have hops : ∀ n ∈ operands, (faultless σ).NodeHeld s.extent n :=
      fun n hn => hm.item_held (List.mem_cons_of_mem _ hn)
    cases depth with
    | zero => cases heval
    | succ depth =>
      rcases expand_ofFault hheld hops hn with
        ⟨test, branches, hif, rfl, hbranches, htest⟩ | ⟨hrejects, hmarks, -⟩
      · have hmem : test ∈ Node.leaf head :: test :: branches := by simp
        have hne := ne_ofFault_of_held (hm.item_held hmem) f
        exact .test hx hif hbranches (ih (hm.item hmem) htest hne)
      · exact .refused hx hf (hmarks.hasBlank hf) hrejects
  · exact .replaced hx hn (ih (hm.expanded hx hn) heval hreport)

theorem stray_of_plain {head : Token} {v : Value}
    (hm : Regular M ⟨scope, .form (.leaf head :: operands), s⟩)
    (hpos : (Node.form (.leaf head :: operands)).position.isUnknown = false)
    (hv : M.headValue scope head s = .ok v) (hplain : ∀ ref, v ≠ .transformer ref)
    (hclean : v.isError = false) (hf : f.pos.isUnknown = true)
    (h : form M (M.recur depth) scope (.leaf head) operands s = .done (.error f) t) :
    M.Stray f (depth + 1) ⟨scope, .form (.leaf head :: operands), s⟩ := by
  rw [form_plain M _ hv hplain] at h
  obtain ⟨x, u, hargs, h⟩ := Action.bind_eq_done.mp h
  cases x with
  | error g =>
    obtain ⟨hg, rfl⟩ := Outcome.done.inj h
    cases hg
    exact stray_of_arguments ih hm ⟨v, hv, hplain⟩ hf hargs
  | ok args =>
    have hknown := sites_applyLeaf hpos head hclean args u f t h
    simp [hknown] at hf

theorem stray_of_compound {head : Node} (hhead : ∀ u, head ≠ .leaf u)
    (hm : Regular M ⟨scope, .form (head :: operands), s⟩)
    (hpos : (Node.form (head :: operands)).position.isUnknown = false)
    (hf : f.pos.isUnknown = true)
    (h : form M (M.recur depth) scope head operands s = .done (.error f) t) :
    M.Stray f (depth + 1) ⟨scope, .form (head :: operands), s⟩ := by
  have hplain : M.PlainHead scope s head := by
    cases head with
    | leaf u => exact absurd rfl (hhead u)
    | _ => trivial
  rw [form_compound M _ hhead] at h
  obtain ⟨x, u, hargs, h⟩ := Action.bind_eq_done.mp h
  rcases arguments_cases hargs with ⟨vs, rfl, hvs⟩ | ⟨pre, n, post, vs, g, s₁, rfl, -⟩
  · obtain ⟨v, w, heval, h⟩ := Action.bind_eq_done.mp h
    cases hv : v.isError with
    | true =>
      cases v with
      | error g =>
        obtain ⟨hg, rfl⟩ := Outcome.done.inj h
        cases hg
        have hafter := hm.collected (fun n hn => List.mem_cons_of_mem _ hn) hvs List.mem_cons_self
        exact .head hhead hvs (ih hafter heval (hhead _))
      | _ => simp [Value.isError] at hv
    | false =>
      have happly : apply M (M.recur depth) v vs (Node.form (head :: operands)).position w =
          .done (.error f) t := by
        cases v with
        | error g => simp [Value.isError] at hv
        | _ => exact h
      have hknown := sites_apply hpos hv vs w f t happly
      simp [hknown] at hf
  · obtain ⟨hg, rfl⟩ := Outcome.done.inj h
    cases hg
    exact stray_of_arguments ih hm hplain hf hargs

end Steps

/-- **A fault without a position is stray.** At a regular moment, a tree has a fault without a
position as its value only if that fault comes from a refusal or from a tree without words, and
nothing on the way has a position for it. -/
theorem stray_of_eval (hf : f.pos.isUnknown = true) : ∀ (depth : Nat) {m : Moment σ} {t : Store σ},
    Regular M m → (M.recur depth).eval m.scope m.tree m.store = .done (.error f) t →
      m.tree ≠ .ofFault f → M.Stray f depth m
  | 0, _, _, _, h, _ => nomatch h
  | depth + 1, ⟨scope, tree, s⟩, t, hm, h, hreport => by
    have ih := @stray_of_eval hf depth
    cases hpos : tree.position.isUnknown with
    | true => exact .wordless hpos hreport hf h
    | false =>
      cases tree with
      | absent => simp [Node.position] at hpos
      | leaf u =>
        have hknown := known_of_leaf hm hpos h
        simp [hknown] at hf
      | form ns =>
        cases ns with
        | nil => simp [Node.position, Node.positionOfAll] at hpos
        | cons head operands =>
          by_cases hleaf : ∃ u, head = .leaf u
          · obtain ⟨u, rfl⟩ := hleaf
            rcases headValue_cases hm with ⟨v, hv, hclean⟩ | ⟨g, hg, hknown⟩
            · by_cases hform : ∃ ref, v = .transformer ref
              · obtain ⟨ref, rfl⟩ := hform
                change form M (M.recur depth) scope (.leaf u) operands s = _ at h
                have h' := h
                rw [form_transformer M _ hv] at h'
                cases hx : s.transformers[ref]? with
                | none => simp [hx] at h'
                | some x => exact stray_of_replacement ih hm ⟨ref, hv, hx⟩ hf h
              · exact stray_of_plain ih hm hpos hv (fun ref hv => hform ⟨ref, hv⟩) hclean hf h
            · change form M (M.recur depth) scope (.leaf u) operands s = _ at h
              rw [form_unresolved M _ hg] at h
              cases h
              simp [hknown] at hf
          · exact stray_of_compound ih (fun u hu => hleaf ⟨u, hu⟩) hm hpos hf h

end Machine

/-! ### Sessions -/

namespace Session

variable {c : Config} {H : Host σ} {state : σ} {s : Session σ}

/-- In a session without help from the embedding program, the evaluation of a source passes only
regular moments. -/
theorem Unaided.regular (h : s.Unaided c H state) {source : Text} {before after : Forest}
    {tree : Node} {vs : List Value} {store : Store σ}
    (hparse : s.parse source = before ++ tree :: after)
    (hrun : s.machine.runAll s.depth before s.store = some (vs, store)) {m : Moment σ}
    (hm : s.machine.Passes s.depth ⟨[], tree, store⟩ m) : m.Regular s.machine := by
  have hplaced : ∀ n ∈ before ++ tree :: after, n.MadeOf Token.Placed := by
    rw [← hparse]
    exact s.placed_of_parse source
  have hstart : (Moment.mk [] tree store).MadeOf Token.Placed :=
    ⟨Machine.madeOf_runAll Token.placed_enduring before h.placed
      (fun n hn => hplaced n (List.mem_append_left _ hn)) hrun, hplaced tree (by simp)⟩
  exact ⟨h.momentHeld hparse hrun hm, Machine.madeOf_of_passes Token.placed_enduring hstart hm⟩

/-- **Exactly the stray faults have no position.** A tree of a source that has a leaf has a
position. At every moment of the evaluation of any source, a tree with a position has a fault
without one as its value exactly if that fault is stray: it comes from a form that is refused for
operands without words, or from a tree without words, and it was handed up from there as the value
of an argument, of a head, of a test or of a replacement. -/
theorem fault_unplaced_iff_stray (h : s.Unaided c H state) (source : Text) :
    (∀ tree ∈ s.parse source, ∀ n t, n.Part tree → (Node.leaf t).Part n →
      n.position.isUnknown = false) ∧
    ∀ before tree after vs store, s.parse source = before ++ tree :: after →
      s.machine.runAll s.depth before s.store = some (vs, store) →
        ∀ m, s.machine.Passes s.depth ⟨[], tree, store⟩ m → m.tree.position.isUnknown = false →
          ∀ depth f, ((∃ t, (s.machine.recur depth).eval m.scope m.tree m.store =
              .done (.error f) t) ∧ f.pos.isUnknown = true) ↔ s.machine.Stray f depth m := by
  refine ⟨fun tree htree n t hn ht => ?_, fun before tree after vs store hparse hrun m hm hpos
    depth f => ⟨?_, Machine.Stray.eval⟩⟩
  · have hleaf := ((s.known_of_parse source tree htree).of_part hn).of_part ht
    exact Node.known_of_part ht (Node.madeOf_leaf.mp hleaf)
  · rintro ⟨⟨t, heval⟩, hf⟩
    refine Machine.stray_of_eval hf depth (h.regular hparse hrun hm) heval ?_
    intro hreport
    have hknown : f.pos.isUnknown = false := by rwa [hreport] at hpos
    simp [hknown] at hf

/-- The form `(list (fn))` in a fresh session: `(fn)` is refused, for it has no operands, and the
fault has no position. It is an argument of the form around it, whose position it is then reported
at. -/
theorem fault_unplaced_of_empty_lambda :
    let s : Session Unit := { Session.start .default .none () with depth := 6 }
    ∃ tree f t, s.parse "(list (fn))" = [tree] ∧ tree.position.isUnknown = false ∧
      f.pos.isUnknown = true ∧ s.machine.Stray f 6 ⟨[], tree, s.store⟩ ∧
      s.machine.run 6 tree s.store = some (.error (f.located tree.position), t) := by
  intro s
  have hstart : s.Unaided .default .none () := .start 6
  have hshape : (s.parse "(list (fn))").map (fun n => (n.position.isUnknown,
      ((s.machine.recur 6).eval [] n s.store).fault?.map fun f => f.pos.isUnknown)) =
        [(false, some true)] := by decide +kernel
  obtain ⟨tree, hparse, htree⟩ := List.map_eq_singleton_iff.mp hshape
  obtain ⟨hpos, hfault⟩ := Prod.mk.inj htree
  obtain ⟨f, hf, hunknown⟩ := Option.map_eq_some_iff.mp hfault
  obtain ⟨t, heval⟩ := Outcome.eq_done_of_fault? hf
  have hstray := ((fault_unplaced_iff_stray hstart _).2 [] tree [] [] s.store hparse rfl _
    Machine.passes_self hpos 6 f).mp ⟨⟨t, heval⟩, hunknown⟩
  refine ⟨tree, f, t, hparse, hpos, hunknown, hstray, ?_⟩
  have hknown := f.known_located hpos
  simp [Machine.run, heval, Value.located, Fault.located_of_known hknown]

end Session

end LittleLisp
