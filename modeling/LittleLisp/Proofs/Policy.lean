/-
# Policies

A policy says what a store may hold and how an evaluation may end: which values without
parts may occur, which faults a tree may have as its value, which alarms may interrupt
it, and which states the embedding program may be in. What may be held can depend on how
many functions and transformers there are, and may only become more as these grow; so
a reference that is in bounds stays in bounds.

A policy is about the parts of values, and `Value.Every` carries it to the lists and maps
made of them. From there it goes to tokens, trees, templates, scopes and stores.
`Policy.Admits` lists what a machine must satisfy for evaluation to keep a policy; all of
it is about single values, printing and the embedding program, not about evaluation.

Key definitions: `Value.Every`, `Policy`, `Policy.StoreHeld`, `Policy.Admits`,
`Policy.Keeps`.
Key theorems: `Policy.Keeps.bind`, `Policy.StoreHeld.define`.
-/
import Mathlib.Order.Basic
import Mathlib.Tactic.Common
import LittleLisp.Machine
import LittleLisp.Proofs.Bounds
import LittleLisp.Proofs.Expansion.Bounds

namespace LittleLisp

/-! ### Values by their parts -/

namespace Value

/-- Whether a value is no list and no map. -/
def isPart : Value → Bool
  | .list _ _ => false
  | .map _ _ => false
  | _ => true

/-- Every part of a value satisfies `p`, at any depth of lists and maps. -/
inductive Every (p : Value → Prop) : Value → Prop where
  | part {v : Value} (hv : v.isPart = true) (h : p v) : Every p v
  | list {stamp : Nat} {items : List Value} (h : ∀ v ∈ items, Every p v) :
      Every p (.list stamp items)
  | map {stamp : Nat} {entries : Entries} (h : ∀ x ∈ entries, Every p x.2) :
      Every p (.map stamp entries)

variable {p q : Value → Prop}

theorem Every.of_part {v : Value} (h : Every p v) (hv : v.isPart = true) : p v := by
  cases h with
  | part _ h => exact h
  | list _ => simp [isPart] at hv
  | map _ => simp [isPart] at hv

@[simp] theorem every_list {stamp : Nat} {items : List Value} :
    Every p (.list stamp items) ↔ ∀ v ∈ items, Every p v := by
  refine ⟨fun h => ?_, Every.list⟩
  cases h with
  | part hv _ => simp [isPart] at hv
  | list h => exact h

@[simp] theorem every_map {stamp : Nat} {entries : Entries} :
    Every p (.map stamp entries) ↔ ∀ x ∈ entries, Every p x.2 := by
  refine ⟨fun h => ?_, Every.map⟩
  cases h with
  | part hv _ => simp [isPart] at hv
  | map h => exact h

theorem Every.imp (h : ∀ v, p v → q v) {v : Value} (hv : Every p v) : Every q v := by
  induction hv with
  | part hv hp => exact .part hv (h _ hp)
  | list _ ih => exact .list ih
  | map _ ih => exact .map ih

/-- A value occurs in another one, at any depth of lists and maps. -/
inductive Has : Value → Value → Prop where
  | self {v : Value} : Has v v
  | item {stamp : Nat} {items : List Value} {v w : Value} (hv : v ∈ items) (h : Has v w) :
      Has (.list stamp items) w
  | entry {stamp : Nat} {entries : Entries} {x : Atom × Value} {w : Value} (hx : x ∈ entries)
      (h : Has x.2 w) : Has (.map stamp entries) w

theorem Every.of_has {v w : Value} (h : Every p v) (hw : Has v w) : Every p w := by
  induction hw with
  | self => exact h
  | item hv _ ih => exact ih (every_list.mp h _ hv)
  | entry hx _ ih => exact ih (every_map.mp h _ hx)

/-- Every part satisfies `p` if every part that occurs does. -/
theorem every_of_has : ∀ v : Value, (∀ w, Has v w → w.isPart = true → p w) → Every p v
  | .list _ _, h => .list fun v hv => every_of_has v fun w hw => h w (.item hv hw)
  | .map _ _, h => .map fun x hx => every_of_has x.2 fun w hw => h w (.entry hx hw)
  | .absent, h => .part rfl (h _ .self rfl)
  | .atom _, h => .part rfl (h _ .self rfl)
  | .undefined _, h => .part rfl (h _ .self rfl)
  | .function _, h => .part rfl (h _ .self rfl)
  | .transformer _, h => .part rfl (h _ .self rfl)
  | .object _, h => .part rfl (h _ .self rfl)
  | .error _, h => .part rfl (h _ .self rfl)
decreasing_by
  · have := List.sizeOf_lt_of_mem hv
    simp only [Value.list.sizeOf_spec]
    omega
  · have := List.sizeOf_lt_of_mem hx
    obtain ⟨k, v⟩ := x
    simp only [Value.map.sizeOf_spec, Prod.mk.sizeOf_spec] at this ⊢
    omega

end Value

/-! ### Extents -/

/-- How many functions and transformers there are. -/
structure Extent where
  functions : Nat
  transformers : Nat

instance : Preorder Extent where
  le d e := d.functions ≤ e.functions ∧ d.transformers ≤ e.transformers
  le_refl _ := ⟨Nat.le_refl _, Nat.le_refl _⟩
  le_trans _ _ _ h h' := ⟨Nat.le_trans h.1 h'.1, Nat.le_trans h.2 h'.2⟩

/-- The extent of a store. -/
def Store.extent {σ : Type} (s : Store σ) : Extent := ⟨s.functions.size, s.transformers.size⟩

/-! ### Policies -/

/-- What may be held, and how an evaluation may end. -/
structure Policy (σ : Type) where
  /-- The values without parts that may be held in a store of some extent. -/
  holds : Extent → Value → Prop
  /-- The faults that a tree may have as its value. -/
  reports : Fault → Prop
  /-- The alarms that may interrupt an evaluation. -/
  raises : Alarm → Prop
  /-- Whether the embedding program may have added functions and transformers of its own. -/
  foreign : Prop
  /-- The states that the embedding program may be in. -/
  states : σ → Prop

namespace Policy

variable {σ α β : Type} (P : Policy σ)

/-- A value that may be held. -/
def Held (e : Extent) (v : Value) : Prop := v.Every (P.holds e)

/-- A value that an evaluation may give: one that may be held, or a fault that may be reported. -/
def Result (e : Extent) (v : Value) : Prop := P.Held e v ∨ ∃ f, v = .error f ∧ P.reports f

/-- A token that may be part of a tree. Identifiers may carry a mark that they stand for nothing. -/
def TokenHeld (e : Extent) (t : Token) : Prop :=
  (t.type = .identifier ∧ ∃ n, t.value = .undefined n) ∨ P.Held e t.value

/-- A tree whose tokens may all be held. -/
inductive NodeHeld (e : Extent) : Node → Prop where
  | absent : NodeHeld e .absent
  | leaf {t : Token} (h : P.TokenHeld e t) : NodeHeld e (.leaf t)
  | form {ns : List Node} (h : ∀ n ∈ ns, NodeHeld e n) : NodeHeld e (.form ns)

/-- What a form may be replaced by: a tree that may be held, or the report of a fault. -/
def NodeResult (e : Extent) (n : Node) : Prop :=
  P.NodeHeld e n ∨ ∃ f, n = .ofFault f ∧ P.reports f

/-- A template whose tokens may all be held. -/
inductive TemplateHeld (e : Extent) : Template → Prop where
  | leaf {t : Token} (h : P.TokenHeld e t) : TemplateHeld e (.leaf t)
  | hole {name : Text} {depth : Nat} : TemplateHeld e (.variable name depth)
  | list {ts : List Template} (h : ∀ t ∈ ts, TemplateHeld e t) : TemplateHeld e (.list ts)
  | repeated {driver : Text} {t : Template} (h : TemplateHeld e t) :
      TemplateHeld e (.repeated driver t)

/-- Bindings of values that may be held. -/
def ScopeHeld (e : Extent) (scope : Scope) : Prop := ∀ b ∈ scope, P.Held e b.2

/-- What a function may do. -/
def BodyHeld (e : Extent) : Body → Prop
  | .builtin _ => True
  | .closure c => (∀ n ∈ c.body, P.NodeHeld e n) ∧ P.ScopeHeld e c.scope
  | .binder _ => True
  | .native _ => P.foreign

/-- What a transformer may do. Nothing fails where a user-defined form is expanded, unless the
evaluation may fail anyway. -/
def ExpanderHeld (e : Extent) : Expander → Prop
  | .special _ => True
  | .userDefined x =>
    (∀ c ∈ x.clauses, P.TemplateHeld e c.template) ∧
      (x.Bounded ∨ ∀ message, P.raises (.native message))
  | .lastOperand => P.foreign
  | .eager => P.foreign

/-- The functions and transformers that evaluation itself refers to. -/
structure CoreHeld (M : Machine σ) (e : Extent) : Prop where
  identity : P.holds e (.function Store.identityRef)
  getter : P.holds e (.function M.getter)
  sequence : P.holds e (.function Store.doRef)
  conditional : P.holds e (.transformer Store.conditionalRef)

/-- A store that follows the policy. -/
structure StoreHeld (M : Machine σ) (s : Store σ) : Prop where
  bindings : P.ScopeHeld s.extent s.bindings
  functions : ∀ f ∈ s.functions, P.BodyHeld s.extent f.body
  transformers : ∀ x ∈ s.transformers, P.ExpanderHeld s.extent x.expander
  core : P.CoreHeld M s.extent
  host : P.states s.host

/-- A script of the embedding program that follows the policy: it passes on values that may be held
and comes back with results, whatever the functions it calls give it. -/
def ScriptHeld : Script σ Value → Extent → Prop
  | .done state v, e => P.states state ∧ P.Result e v
  | .raise state alarm, _ => P.states state ∧ P.raises alarm
  | .call state f args next, e =>
    P.states state ∧ P.holds e (.function f) ∧ (∀ v ∈ args, P.Held e v) ∧
      ∀ state' v e', e ≤ e' → P.states state' → P.Result e' v → ScriptHeld (next state' v) e'
  | .print state v next, e =>
    P.states state ∧ (∀ L message, v.text L = .error message → P.raises (.native message)) ∧
      ∀ t, ScriptHeld (next t) e
  | .nameOf state _ next, e => P.states state ∧ ∀ t, ScriptHeld (next t) e

/-- What a machine must satisfy to keep the policy. -/
structure Admits (M : Machine σ) : Prop where
  mono : ∀ {d e v}, d ≤ e → P.holds d v → P.holds e v
  atom : ∀ {e a}, P.holds e (.atom a)
  function : ∀ {e ref}, ref < e.functions → P.holds e (.function ref)
  transformer : ∀ {e ref}, ref < e.transformers → P.holds e (.transformer ref)
  /-- A fault that may be held may be reported. -/
  held : ∀ {e f}, P.holds e (.error f) → P.reports f
  /-- A position makes no difference. -/
  located : ∀ {f} p, P.reports f → P.reports (f.located p)
  /-- What evaluation itself finds wrong may be reported. -/
  internal : ∀ {f}, f.kind ≠ .native → P.reports f
  /-- Transformers of the embedding program make data of faults. -/
  eager : ∀ {e f}, P.foreign → P.reports f → P.holds e (.error f)
  /-- A value that may be held and cannot be printed may interrupt the evaluation. -/
  printing : ∀ {e v L message}, P.Held e v → v.text L = .error message →
    P.raises (.native message)
  /-- A function that may be held and does not exist may interrupt the evaluation. -/
  missing : ∀ {e ref}, P.holds e (.function ref) → e.functions ≤ ref →
    P.raises (.native missingValue)
  /-- A transformer that may be held and does not exist may interrupt the evaluation. -/
  missingForm : ∀ {e ref}, P.holds e (.transformer ref) → e.transformers ≤ ref →
    P.raises (.native missingValue)
  native : ∀ {e name args state}, P.foreign → (∀ v ∈ args, P.Held e v) → P.states state →
    P.ScriptHeld (M.host.native name args state) e
  /-- A validator refuses with a fault that may be reported, and fails with an alarm that may
  interrupt the evaluation. -/
  refusal : ∀ {e o L rules args f}, P.holds e (.object o) →
    M.refusal L rules args = .ok (some f) → P.reports f
  failure : ∀ {e o L rules args message}, P.holds e (.object o) →
    M.refusal L rules args = .error message → P.raises (.native message)
  /-- Methods need to follow the policy only where they are exported and the validator has nothing
  against their arguments. -/
  method : ∀ {e o name found run args} {s : Store σ}, P.holds e (.object o) →
    M.host.Offers o name found run →
    M.refusal (s.legend M.host) found.rules args = .ok none → (∀ v ∈ args, P.Held e v) →
    P.states s.host → P.ScriptHeld (run (s.legend M.host) args s.host) e

/-- The outcome of an action that started in a store of extent `e`: the store it left follows the
policy and is no smaller, a result satisfies `Q`, and an alarm may be raised. -/
def Keeps (M : Machine σ) (Q : Extent → α → Prop) (e : Extent) (o : Outcome σ α) : Prop :=
  e ≤ o.store.extent ∧ P.StoreHeld M o.store ∧
    match o with
    | .done a s => Q s.extent a
    | .raised alarm _ => P.raises alarm
    | .exhausted _ => True

/-! ### What may be held stays so under a wider policy -/

section Wider

variable {τ : Type} {P} {Q : Policy τ} {d e : Extent} (h : ∀ v, P.holds d v → Q.holds e v)

include h

theorem Held.imp {v : Value} (hv : P.Held d v) : Q.Held e v := Value.Every.imp h hv

theorem TokenHeld.imp {t : Token} (ht : P.TokenHeld d t) : Q.TokenHeld e t :=
  Or.imp id (Held.imp h) ht

theorem NodeHeld.imp {n : Node} (hn : P.NodeHeld d n) : Q.NodeHeld e n := by
  induction hn with
  | absent => exact .absent
  | leaf ht => exact .leaf (TokenHeld.imp h ht)
  | form _ ih => exact .form ih

theorem TemplateHeld.imp {t : Template} (ht : P.TemplateHeld d t) : Q.TemplateHeld e t := by
  induction ht with
  | leaf ht => exact .leaf (TokenHeld.imp h ht)
  | hole => exact .hole
  | list _ ih => exact .list ih
  | repeated _ ih => exact .repeated ih

theorem ScopeHeld.imp {scope : Scope} (hs : P.ScopeHeld d scope) : Q.ScopeHeld e scope :=
  fun b hb => Held.imp h (hs b hb)

theorem BodyHeld.imp (hforeign : P.foreign → Q.foreign) {b : Body} (hb : P.BodyHeld d b) :
    Q.BodyHeld e b := by
  cases b with
  | builtin _ => trivial
  | closure c => exact ⟨fun n hn => NodeHeld.imp h (hb.1 n hn), ScopeHeld.imp h hb.2⟩
  | binder _ => trivial
  | native _ => exact hforeign hb

theorem ExpanderHeld.imp (hforeign : P.foreign → Q.foreign)
    (hraises : ∀ alarm, P.raises alarm → Q.raises alarm) {x : Expander}
    (hx : P.ExpanderHeld d x) : Q.ExpanderHeld e x := by
  cases x with
  | special _ => trivial
  | userDefined x =>
    exact ⟨fun c hc => TemplateHeld.imp h (hx.1 c hc),
      hx.2.imp_right fun hall message => hraises _ (hall message)⟩
  | lastOperand => exact hforeign hx
  | eager => exact hforeign hx

end Wider

/-! ### What may be held stays so as the store grows -/

section Growth

variable {P} {M : Machine σ} (hP : P.Admits M) {d e : Extent} (hde : d ≤ e)

include hP hde

theorem Held.mono {v : Value} (h : P.Held d v) : P.Held e v := h.imp fun _ => hP.mono hde

theorem Result.mono {v : Value} (h : P.Result d v) : P.Result e v := Or.imp (Held.mono hP hde) id h

theorem TokenHeld.mono {t : Token} (h : P.TokenHeld d t) : P.TokenHeld e t :=
  h.imp fun _ => hP.mono hde

theorem NodeHeld.mono {n : Node} (h : P.NodeHeld d n) : P.NodeHeld e n :=
  h.imp fun _ => hP.mono hde

theorem NodeResult.mono {n : Node} (h : P.NodeResult d n) : P.NodeResult e n :=
  Or.imp (NodeHeld.mono hP hde) id h

theorem ScopeHeld.mono {scope : Scope} (h : P.ScopeHeld d scope) : P.ScopeHeld e scope :=
  h.imp fun _ => hP.mono hde

theorem BodyHeld.mono {b : Body} (h : P.BodyHeld d b) : P.BodyHeld e b :=
  h.imp (fun _ => hP.mono hde) id

theorem ExpanderHeld.mono {x : Expander} (h : P.ExpanderHeld d x) : P.ExpanderHeld e x :=
  h.imp (fun _ => hP.mono hde) id fun _ => id

theorem CoreHeld.mono (h : P.CoreHeld M d) : P.CoreHeld M e :=
  ⟨hP.mono hde h.identity, hP.mono hde h.getter, hP.mono hde h.sequence, hP.mono hde h.conditional⟩

end Growth

/-! ### Values and scopes -/

section Values

variable {P} {M : Machine σ} (hP : P.Admits M) {e : Extent}

theorem Result.fault {f : Fault} (h : P.reports f) : P.Result e (.error f) := Or.inr ⟨f, rfl, h⟩

theorem NodeResult.fault {f : Fault} (h : P.reports f) : P.NodeResult e (.ofFault f) :=
  Or.inr ⟨f, rfl, h⟩

include hP

theorem held_atom (a : Atom) : P.Held e (.atom a) := .part rfl hP.atom

theorem reports_of_held {f : Fault} (h : P.Held e (.error f)) : P.reports f :=
  hP.held (h.of_part rfl)

theorem reports_of_result {f : Fault} (h : P.Result e (.error f)) : P.reports f := by
  rcases h with h | ⟨g, hg, h⟩
  · exact reports_of_held hP h
  · rwa [Value.error.inj hg]

/-- A fault that evaluation itself makes. -/
theorem result_fail {kind : FaultKind} (h : kind ≠ .native) (message : List Text) :
    P.Result e (.fail kind message) := Result.fault (hP.internal h)

theorem result_placed {kind : FaultKind} (h : kind ≠ .native) (p : Position)
    (message : List Text) : P.Result e (.error (.placed kind p message)) :=
  Result.fault (hP.internal h)

theorem nodeResult_malformed (p : Position) (message : List Text) :
    P.NodeResult e (.malformed p message) :=
  NodeResult.fault (hP.internal (by simp [Fault.placed]))

theorem Held.orNil {v : Value} (h : P.Held e v) : P.Held e v.orNil := by
  cases v with
  | absent => exact held_atom hP _
  | _ => exact h

theorem Result.orNil {v : Value} (h : P.Result e v) : P.Result e v.orNil := by
  rcases h with h | ⟨f, rfl, h⟩
  · exact Or.inl (h.orNil hP)
  · exact Result.fault h

theorem Result.located {v : Value} (h : P.Result e v) (p : Position) :
    P.Result e (v.located p) := by
  cases v with
  | error f => exact Result.fault (hP.located p (reports_of_result hP h))
  | _ => exact h

omit hP in
/-- A result that is no fault may be held. -/
theorem Result.held {v : Value} (h : P.Result e v) (hv : ∀ f, v ≠ .error f) : P.Held e v := by
  rcases h with h | ⟨f, rfl, _⟩
  · exact h
  · exact absurd rfl (hv f)

omit hP

theorem ScopeHeld.find? {scope : Scope} (h : P.ScopeHeld e scope) {name : Text} {v : Value}
    (hv : scope.find? name = some v) : P.Held e v :=
  h _ (Bindings.mem_of_find? hv)

theorem ScopeHeld.insert {scope : Scope} (h : P.ScopeHeld e scope) {v : Value}
    (hv : P.Held e v) (name : Text) : P.ScopeHeld e (scope.insert name v) := by
  intro b hb
  rcases Bindings.mem_insert hb with rfl | hb
  · exact hv
  · exact h b hb

theorem ScopeHeld.insertAll : ∀ (names : List Text) (vs : List Value) {scope : Scope},
    P.ScopeHeld e scope → (∀ v ∈ vs, P.Held e v) → P.ScopeHeld e (scope.insertAll names vs)
  | [], _, _, h, _ => h
  | _ :: _, [], _, h, _ => h
  | name :: names, v :: vs, _, h, hv =>
    ScopeHeld.insertAll names vs (h.insert (hv v List.mem_cons_self) name)
      fun w hw => hv w (List.mem_cons_of_mem _ hw)

end Values

/-! ### Stores -/

section Stores

variable {P} {M : Machine σ} {s : Store σ}

theorem StoreHeld.bind (h : P.StoreHeld M s) {v : Value} (hv : P.Held s.extent v) (name : Text) :
    P.StoreHeld M (s.bind name v) :=
  ⟨h.bindings.insert hv name, h.functions, h.transformers, h.core, h.host⟩

theorem StoreHeld.nameFunction (h : P.StoreHeld M s) (ref : Nat) (name : Text) :
    P.StoreHeld M (s.nameFunction ref name) := by
  have he : (s.nameFunction ref name).extent = s.extent := by
    simp [Store.extent, Store.nameFunction]
  refine ⟨he ▸ h.bindings, fun f hf => ?_, he ▸ h.transformers, he ▸ h.core, h.host⟩
  rw [he]
  obtain ⟨i, hi, rfl⟩ := Array.mem_iff_getElem.mp hf
  simp only [Store.nameFunction, Array.getElem_modify]
  have hb := h.functions _ (Array.getElem_mem (by simpa [Store.nameFunction] using hi))
  split_ifs
  · exact hb
  · exact hb
  · exact hb

theorem StoreHeld.withHost (h : P.StoreHeld M s) {state : σ} (hs : P.states state) :
    P.StoreHeld M { s with host := state } :=
  ⟨h.bindings, h.functions, h.transformers, h.core, hs⟩

theorem StoreHeld.withStamps (h : P.StoreHeld M s) (n : Nat) :
    P.StoreHeld M { s with stamps := n } :=
  ⟨h.bindings, h.functions, h.transformers, h.core, h.host⟩

/-- What a binder does keeps the policy. -/
theorem StoreHeld.define (h : P.StoreHeld M s) {v : Value} (hv : P.Held s.extent v)
    (name : Text) : P.StoreHeld M (s.define name v) := by
  cases v with
  | function ref =>
    refine (h.nameFunction ref name).bind ?_ name
    simpa [Store.extent, Store.nameFunction] using hv
  | _ => exact h.bind hv name

theorem extent_define (s : Store σ) (name : Text) (v : Value) :
    (s.define name v).extent = s.extent := by
  cases v <;> simp [Store.define, Store.extent, Store.bind, Store.nameFunction]

variable (hP : P.Admits M)

include hP

/-- A store with one more function follows the policy if that function does. -/
theorem StoreHeld.addFunction (h : P.StoreHeld M s) {f : Function}
    (hf : P.BodyHeld s.extent f.body) :
    s.extent ≤ (s.addFunction f).2.extent ∧ P.StoreHeld M (s.addFunction f).2 ∧
      P.holds (s.addFunction f).2.extent (.function (s.addFunction f).1) := by
  have he : s.extent ≤ (s.addFunction f).2.extent :=
    ⟨by simp [Store.addFunction, Store.extent], Nat.le_refl _⟩
  refine ⟨he, ⟨h.bindings.mono hP he, fun g hg => ?_,
    fun x hx => (h.transformers x hx).mono hP he, h.core.mono hP he, h.host⟩, ?_⟩
  · rcases Array.mem_push.mp hg with hg | rfl
    · exact (h.functions g hg).mono hP he
    · exact hf.mono hP he
  · exact hP.function (by simp [Store.addFunction, Store.extent])

/-- A store with one more transformer follows the policy if that transformer does. -/
theorem StoreHeld.addTransformer (h : P.StoreHeld M s) {x : Transformer}
    (hx : P.ExpanderHeld s.extent x.expander) :
    s.extent ≤ (s.addTransformer x).2.extent ∧ P.StoreHeld M (s.addTransformer x).2 ∧
      P.holds (s.addTransformer x).2.extent (.transformer (s.addTransformer x).1) := by
  have he : s.extent ≤ (s.addTransformer x).2.extent :=
    ⟨Nat.le_refl _, by simp [Store.addTransformer, Store.extent]⟩
  refine ⟨he, ⟨h.bindings.mono hP he, fun g hg => (h.functions g hg).mono hP he,
    fun y hy => ?_, h.core.mono hP he, h.host⟩, ?_⟩
  · rcases Array.mem_push.mp hy with hy | rfl
    · exact (h.transformers y hy).mono hP he
    · exact hx.mono hP he
  · exact hP.transformer (by simp [Store.addTransformer, Store.extent])

end Stores

/-! ### Actions -/

section Actions

variable {P} {M : Machine σ} {s : Store σ} {d e : Extent} {Q : Extent → α → Prop}

theorem Keeps.weaken (hde : d ≤ e) {o : Outcome σ α} (h : P.Keeps M Q e o) : P.Keeps M Q d o :=
  ⟨le_trans hde h.1, h.2⟩

theorem keeps_done (hs : P.StoreHeld M s) {a : α} (ha : Q s.extent a) :
    P.Keeps M Q s.extent (.done a s) := ⟨le_rfl, hs, ha⟩

theorem keeps_pure (hs : P.StoreHeld M s) {a : α} (ha : Q s.extent a) :
    P.Keeps M Q s.extent ((pure a : Action σ α) s) := keeps_done hs ha

theorem keeps_raise (hs : P.StoreHeld M s) {alarm : Alarm} (ha : P.raises alarm) :
    P.Keeps M Q s.extent (Action.raise alarm s) := ⟨le_rfl, hs, ha⟩

/-- Actions are chained: what the first one leaves is where the second one starts. -/
theorem Keeps.bind {x : Action σ α} {f : α → Action σ β} {R : Extent → β → Prop}
    (hx : P.Keeps M Q e (x s))
    (hf : ∀ a t, e ≤ t.extent → P.StoreHeld M t → Q t.extent a → P.Keeps M R t.extent (f a t)) :
    P.Keeps M R e ((x >>= f) s) := by
  change P.Keeps M R e (Action.bind x f s)
  unfold Action.bind
  cases hxs : x s with
  | done a t =>
    rw [hxs] at hx
    exact (hf a t hx.1 hx.2.1 hx.2.2).weaken hx.1
  | raised alarm t => rwa [hxs] at hx
  | exhausted t => rwa [hxs] at hx

/-- Reading the store changes nothing. -/
theorem keeps_bind_store {f : Store σ → Action σ β} {R : Extent → β → Prop}
    (hf : P.Keeps M R e (f s s)) : P.Keeps M R e ((Action.store >>= f) s) := hf

/-- Neither does finding out how values are printed. -/
theorem keeps_bind_legend {f : Legend → Action σ β} {R : Extent → β → Prop}
    (hf : P.Keeps M R e (f (s.legend M.host) s)) :
    P.Keeps M R e ((Action.legend M.host >>= f) s) := hf

/-- A new state of the embedding program leaves the rest of the store alone. -/
theorem keeps_bind_host {state : σ} {f : Unit → Action σ β} {R : Extent → β → Prop}
    (hf : P.Keeps M R e (f () { s with host := state })) :
    P.Keeps M R e ((Action.modify (fun s => { s with host := state }) >>= f) s) := hf

theorem keeps_update {f : Store σ → α × Store σ} (he : s.extent ≤ (f s).2.extent)
    (hs : P.StoreHeld M (f s).2) (hQ : Q (f s).2.extent (f s).1) :
    P.Keeps M Q s.extent (Action.update f s) := ⟨he, hs, hQ⟩

theorem keeps_ofExcept {x : Except Text α} (hs : P.StoreHeld M s)
    (hok : ∀ a, x = .ok a → Q s.extent a)
    (herr : ∀ message, x = .error message → P.raises (.native message)) :
    P.Keeps M Q s.extent (Action.ofExcept x s) := by
  cases x with
  | ok a => exact keeps_pure hs (hok a rfl)
  | error message => exact keeps_raise hs (herr message rfl)

theorem keeps_addFunction (hP : P.Admits M) (hs : P.StoreHeld M s) {f : Function}
    (hf : P.BodyHeld s.extent f.body) :
    P.Keeps M (fun e ref => P.holds e (.function ref)) s.extent
      (Action.update (fun s => s.addFunction f) s) := hs.addFunction hP hf

theorem keeps_addTransformer (hP : P.Admits M) (hs : P.StoreHeld M s) {x : Transformer}
    (hx : P.ExpanderHeld s.extent x.expander) :
    P.Keeps M (fun e ref => P.holds e (.transformer ref)) s.extent
      (Action.update (fun s => s.addTransformer x) s) := hs.addTransformer hP hx

end Actions

end Policy

end LittleLisp
