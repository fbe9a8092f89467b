/-
# Special forms

A special form is met wherever the head of a form stands for it: as a name of the module, as a
local name, or as a value that the head itself carries. The form is then replaced, and what takes
its place is evaluated in the same scope.

A form that looks wrong is refused: its value is a fault that calls it malformed, and nothing has
been evaluated. The message may have to name a tree of the form. Not every tree can be printed, and
if that one cannot, the failure to print it interrupts the evaluation in place of the refusal.

What evaluation itself refers to is in every store from the start on, since stores only grow.

Key definitions: `Store.Equipped`, `Machine.Refused`.
Key theorems: `Store.equipped_withGlobals`, `Machine.Means.replaced`, `Machine.Means.refused`.
-/
import LittleLisp.Proofs.Attribution.Refusal
import LittleLisp.Proofs.Nesting.Rules

namespace LittleLisp

variable {σ : Type}

/-! ### Names as operands -/

namespace Node

theorem identifier?_leaf {t : Token} (h : t.type = .identifier) :
    (leaf t).identifier? = some t := by
  rw [identifier?, if_pos h]

theorem identifier?_eq_none {n : Node} (h : ∀ t : Token, t.type = .identifier → n ≠ .leaf t) :
    n.identifier? = none := by
  cases hn : n.identifier? with
  | none => rfl
  | some t =>
    obtain ⟨rfl, ht⟩ := identifier_eq_some hn
    exact absurd rfl (h t ht)

end Node

/-! ### What evaluation refers to -/

namespace Store

/-- The functions and the special form that evaluation itself refers to are there. -/
structure Equipped (s : Store σ) : Prop where
  identity : s.builtin? identityRef = some .identity
  sequence : s.builtin? doRef = some .do
  conditional : ∃ x : Transformer, s.transformers[conditionalRef]? = some x ∧
    x.expander = .special .conditional

theorem Equipped.grows {s t : Store σ} (h : s.Equipped) (ht : s.Grows t) : t.Equipped where
  identity := ht.builtin? h.identity
  sequence := ht.builtin? h.sequence
  conditional := by
    obtain ⟨x, hx, hexp⟩ := h.conditional
    exact ⟨x, ht.transformers _ x hx, hexp⟩

theorem equipped_empty (module : Text) (host : σ) : (empty module host).Equipped where
  identity := by simp [builtin?, empty, identityRef]
  sequence := by simp [builtin?, empty, doRef]
  conditional := ⟨_, rfl, rfl⟩

theorem grows_bindBuiltin (s : Store σ) (b : Builtin) : s.Grows (s.bindBuiltin b) := by
  have hbind (t : Store σ) (v : Value) : t.Grows (t.bind b.name v) := (extends_bind ..).grows
  have hnew : s.Grows (s.addFunction ⟨b.name, .builtin b⟩).2 := (extends_addFunction ..).grows
  cases b with
  | identity => exact hbind s _
  | get => exact hbind s _
  | _ => exact hnew.trans (hbind _ _)

theorem grows_bindSpecial (s : Store σ) (f : SpecialForm) : s.Grows (s.bindSpecial f) := by
  have hnew : s.Grows (s.addTransformer ⟨f.name, .special f⟩).2 := (extends_addTransformer ..).grows
  exact hnew.trans (extends_bind ..).grows

theorem grows_foldl {α : Type} {step : Store σ → α → Store σ} (hstep : ∀ s a, Grows s (step s a)) :
    ∀ (l : List α) (s : Store σ), s.Grows (l.foldl step s)
  | [], s => .refl s
  | a :: l, s => (hstep s a).trans (grows_foldl hstep l (step s a))

/-- A module starts with what evaluation refers to. -/
theorem equipped_withGlobals (module : Text) (host : σ) : (withGlobals module host).Equipped := by
  have hbuiltins := grows_foldl grows_bindBuiltin Builtin.all (empty module host)
  have hpi := hbuiltins.trans (extends_bind _ "pi" (.number Number.pi)).grows
  have hall := hpi.trans (grows_foldl grows_bindSpecial SpecialForm.all _)
  exact (equipped_empty module host).grows hall

end Store

namespace Machine

open Outcome (Same)

/-! ### Where a special form is met -/

variable {M : Machine σ} {scope : Scope} {s t : Store σ} {f : SpecialForm} {head : Token}
  {operands : List Node}

/-- A leaf that carries the special form itself. -/
theorem means_ofValue {ref : Nat} {x : Transformer} (hx : s.transformers[ref]? = some x)
    (hexp : x.expander = .special f) (scope : Scope) (p : Position) :
    M.Means scope s (.special f) ⟨.literal, p, [], .transformer ref⟩ := by
  have hhead : M.headValue scope ⟨.literal, p, [], .transformer ref⟩ s = .ok (.transformer ref) := by
    simp [headValue, isMethodName]
  exact ⟨ref, x, hhead, hx, hexp⟩

/-- If the replacement is known, it takes the place of the form. -/
theorem Means.replaced (h : M.Means scope s (.special f) head) {n : Node}
    (hn : ∀ x : Transformer, x.expander = .special f →
      expand M M.unbounded x operands scope s = .done n t) :
    Same (M.unbounded.eval scope (.form (.leaf head :: operands)) s)
      (M.unbounded.eval scope n t) := by
  obtain ⟨x, hx, hsame⟩ := h.eval operands
  rwa [Action.bind_done (hn x hx)] at hsame

/-- What interrupts the search for a replacement interrupts the evaluation. -/
theorem Means.interrupted (h : M.Means scope s (.special f) head) {alarm : Alarm}
    (hraised : ∀ x : Transformer, x.expander = .special f →
      expand M M.unbounded x operands scope s = .raised alarm t) :
    M.unbounded.eval scope (.form (.leaf head :: operands)) s = .raised alarm t := by
  obtain ⟨x, hx, hsame⟩ := h.eval operands
  rw [Action.bind_raised (hraised x hx)] at hsame
  exact Outcome.same_raised_iff.mp hsame

/-- A form that is replaced by a report has the reported fault as its value. -/
theorem Means.reported (h : M.Means scope s (.special f) head) (fault : Fault)
    (hfault : ∀ x : Transformer, x.expander = .special f →
      expand M M.unbounded x operands scope s = .done (.ofFault fault) t) :
    M.unbounded.eval scope (.form (.leaf head :: operands)) s = .done (.error fault) t :=
  Outcome.same_done_iff.mp ((h.replaced hfault).trans (.of_eq (unbounded_ofFault fault t)))

/-- A leaf that stands for a function: it is called with the values of the operands. -/
theorem unbounded_called {ref : Nat} (hhead : M.headValue scope head s = .ok (.function ref))
    (operands : List Node) :
    Same (M.unbounded.eval scope (.form (.leaf head :: operands)) s)
      (withArguments M.unbounded scope operands (fun args => do
        let v ← M.unbounded.call ref args
        return v.located (Node.form (.leaf head :: operands)).position) s) := by
  obtain ⟨hkeyword, hmethod⟩ := plain_of_headValue hhead (by simp)
  exact unbounded_applied hkeyword hhead hmethod operands

/-! ### Refusals -/

/-- A form is refused, with the store as it was: its value is a fault that calls it malformed, or,
if a tree that the message has to name cannot be printed, the failure to print it is raised. -/
inductive Refused (L : Legend) (named : Node → Prop) (s : Store σ) : Outcome σ Value → Prop where
  | malformed {fault : Fault} (hkind : fault.kind = .malformed)
      (htexts : ∀ n, named n → ∃ text, n.text L = .ok text) :
      Refused L named s (.done (.error fault) s)
  | unprintable {n : Node} {reason : Text} (hn : named n) (htext : n.text L = .error reason) :
      Refused L named s (.raised (.native reason) s)

/-- Where all trees can be printed, a refused form is called malformed. -/
theorem Refused.kind {L : Legend} {named : Node → Prop} {o : Outcome σ Value}
    (h : Refused L named s o) (htexts : ∀ n, named n → ∃ text, n.text L = .ok text) :
    ∃ fault, o = .done (.error fault) s ∧ fault.kind = .malformed := by
  cases h with
  | malformed hkind _ => exact ⟨_, rfl, hkind⟩
  | unprintable hn htext =>
    obtain ⟨text, hok⟩ := htexts _ hn
    rw [hok] at htext
    cases htext

/-- A form that is refused without naming a tree. -/
theorem Means.refused (h : M.Means scope s (.special f) head) {named : Node → Prop}
    (hnone : ∀ n, ¬ named n) (p : Position) (message : List Text)
    (hexpand : ∀ x : Transformer, x.expander = .special f →
      expand M M.unbounded x operands scope s = .done (.malformed p message) s) :
    Refused (s.legend M.host) named s
      (M.unbounded.eval scope (.form (.leaf head :: operands)) s) := by
  rw [h.reported (.placed .malformed p message) hexpand]
  exact .malformed rfl fun n hn => absurd hn (hnone n)

/-- A form that is refused with a message that names a tree. -/
theorem Means.refused_naming (h : M.Means scope s (.special f) head) {named : Node → Prop}
    {n : Node} (hn : ∀ m, named m ↔ m = n) (p : Position) (message : Text → List Text)
    (hexpand : ∀ x : Transformer, x.expander = .special f →
      expand M M.unbounded x operands scope s = (do
        let text ← mention M n
        return Node.malformed p (message text)) s) :
    Refused (s.legend M.host) named s
      (M.unbounded.eval scope (.form (.leaf head :: operands)) s) := by
  cases htext : n.text (s.legend M.host) with
  | ok text =>
    have hmention : mention M n s = .done text s := by
      simp only [mention, bind, Action.bind, Action.legend, htext, Action.ofExcept]
      rfl
    rw [h.reported (.placed .malformed p (message text)) fun x hx => by
      rw [hexpand x hx, Action.bind_done hmention]; rfl]
    refine .malformed rfl fun m hm => ?_
    rw [(hn m).mp hm]
    exact ⟨text, htext⟩
  | error reason =>
    have hmention : mention M n s = .raised (.native reason) s := by
      simp only [mention, bind, Action.bind, Action.legend, htext, Action.ofExcept]
      rfl
    rw [h.interrupted fun x hx => by rw [hexpand x hx, Action.bind_raised hmention]]
    exact .unprintable ((hn n).mpr rfl) htext

end Machine

end LittleLisp
