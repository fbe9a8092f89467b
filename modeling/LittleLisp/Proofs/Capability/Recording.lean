/-
# Recording method calls

An embedding program can be made to keep a record of its own method calls: each time the
body of a method is entered, the receiver, the name, the arguments and the state at that
moment are added to a list that is part of its state. Everything else stays the same. So
an evaluation with the record does what the evaluation without it does, and the list it
leaves says which method bodies ran.

Key definitions: `Invocation`, `Host.recorded`, `Machine.recorded`, `Outcome.forget`,
`Mirrors`.
Key theorems: `Host.lookup_recorded`, `Machine.recorded_eval`, `Machine.recorded_runAll`.
-/
import LittleLisp.Proofs.Bounds
import LittleLisp.Session

namespace LittleLisp

variable {σ : Type}

/-! ### The record -/

/-- The call of a method body: of an object that answers look-ups itself, with values of the
language, or of a host type, with host values. -/
inductive Invocation (σ : Type) where
  | direct (receiver : Handle) (name : Text) (args : List Value) (state : σ)
  | reflected (receiver : Handle) (name : Text) (args : List HostValue) (state : σ)

/-- A host state with the calls made so far. -/
abbrev Recorded (σ : Type) := σ × List (Invocation σ)

/-- A script that hands the record on from step to step, starting with `calls`. -/
def Script.recorded {α : Type} (calls : List (Invocation σ)) :
    Script σ α → Script (Recorded σ) α
  | .done s a => .done (s, calls) a
  | .raise s alarm => .raise (s, calls) alarm
  | .call s f args next => .call (s, calls) f args fun r v => recorded r.2 (next r.1 v)
  | .print s v next => .print (s, calls) v fun t => recorded calls (next t)
  | .nameOf s f next => .nameOf (s, calls) f fun t => recorded calls (next t)

/-- The same method, which records that it is called. -/
def Method.recorded (h : Handle) (name : Text) (m : Method σ) : Method (Recorded σ) where
  exported := m.exported
  rules := m.rules
  body := m.body.map fun run => fun args s =>
    (run args s.1).recorded (s.2 ++ [.direct h name args s.1])

/-- The same method of a host type, which records that it is called. -/
def ReflectedMethod.recorded (name : Text) (m : ReflectedMethod σ) :
    ReflectedMethod (Recorded σ) where
  signature := m.signature
  body h args s := (m.body h args s.1).recorded (s.2 ++ [.reflected h name args s.1])

/-- The same embedding program, which records the calls of its methods. -/
def Host.recorded (H : Host σ) : Host (Recorded σ) where
  types := H.types
  native name args s := (H.native name args s.1).recorded s.2
  direct h name := (H.direct h name).map (Method.recorded h name)
  reflected t name := (H.reflected t name).map (ReflectedMethod.recorded name)
  label s h := H.label s.1 h

/-- The same machine, whose embedding program records the calls of its methods. -/
def Machine.recorded (M : Machine σ) : Machine (Recorded σ) where
  sigil := M.sigil
  getter := M.getter
  validator := M.validator
  host := M.host.recorded

/-- A store with an empty record. -/
def Store.recorded (s : Store σ) : Store (Recorded σ) where
  module := s.module
  bindings := s.bindings
  functions := s.functions
  transformers := s.transformers
  stamps := s.stamps
  host := (s.host, [])

/-- A store without the record. -/
def Store.forget (s : Store (Recorded σ)) : Store σ where
  module := s.module
  bindings := s.bindings
  functions := s.functions
  transformers := s.transformers
  stamps := s.stamps
  host := s.host.1

/-- An outcome without the record. -/
def Outcome.forget {α : Type} : Outcome (Recorded σ) α → Outcome σ α
  | .done a s => .done a s.forget
  | .raised alarm s => .raised alarm s.forget
  | .exhausted s => .exhausted s.forget

/-! ### Look-ups -/

namespace Host

variable (H : Host σ)

/-- The call of a method body that the call of a method leads to: none if the arguments do not fit
the parameters of a host type's method. -/
def entry (o : Object) (name : Text) (L : Legend) (args : List Value) (s : σ) :
    Option (Invocation σ) :=
  match o with
  | .hollow => .none
  | .reflected .none _ => .none
  | .direct h => some (.direct h name args s)
  | .reflected (some h) _ =>
    match H.reflected h.type name with
    | .none => .none
    | some m =>
      match m.signature.arityFault? name args.length, m.signature.convert H.types L name 0 args with
      | .none, .ok xs => some (.reflected h name xs s)
      | _, _ => .none

/-- What a look-up finds, with a body that records the call it leads to. -/
def Found.recorded (found : Found σ) (o : Object) (name : Text) : Found (Recorded σ) where
  exported := found.exported
  rules := found.rules
  body := found.body.map fun run => fun L args s =>
    (run L args s.1).recorded (s.2 ++ (H.entry o name L args s.1).toList)

theorem finish_recorded (name : Text) (m : ReflectedMethod σ) (calls : List (Invocation σ)) :
    ∀ script : Script σ (Except Text (List HostValue)),
      callReflected.finish H.recorded name (m.recorded name) (script.recorded calls) =
        (callReflected.finish H name m script).recorded calls
  | .done _ (.ok _) => rfl
  | .done _ (.error _) => rfl
  | .raise _ _ => rfl
  | .call _ _ _ next =>
    congrArg (Script.call _ _ _) (funext fun r => funext fun v =>
      finish_recorded name m r.2 (next r.1 v))
  | .print _ _ next =>
    congrArg (Script.print _ _) (funext fun t => finish_recorded name m calls (next t))
  | .nameOf _ _ next =>
    congrArg (Script.nameOf _ _) (funext fun t => finish_recorded name m calls (next t))

theorem callReflected_recorded {h : Handle} {name : Text} {m : ReflectedMethod σ}
    (hm : H.reflected h.type name = some m) (exports : List Text) (L : Legend)
    (args : List Value) (s : Recorded σ) :
    H.recorded.callReflected name h (m.recorded name) L args s =
      (H.callReflected name h m L args s.1).recorded
        (s.2 ++ (H.entry (.reflected (some h) exports) name L args s.1).toList) := by
  simp only [callReflected, entry, hm]
  have hsignature : (m.recorded name).signature = m.signature := rfl
  have htypes : H.recorded.types = H.types := rfl
  rw [hsignature, htypes]
  cases m.signature.arityFault? name args.length with
  | some f => simp [Script.recorded]
  | none =>
    cases m.signature.convert H.types L name 0 args with
    | error a => cases a <;> simp [Script.recorded]
    | ok xs => exact finish_recorded H name m _ _

/-- A look-up finds the same methods, which record their calls. -/
theorem lookup_recorded (o : Object) (name : Text) :
    H.recorded.lookup o name = (H.lookup o name).map fun found => found.recorded H o name := by
  cases o with
  | hollow => rfl
  | direct h =>
    change ((H.direct h name).map (Method.recorded h name)).map _ = _
    simp only [lookup, Option.map_map]
    congr 1
    funext m
    cases hb : m.body <;> simp [Found.recorded, Method.recorded, entry, hb]
  | reflected h exports =>
    cases h with
    | none => rfl
    | some h =>
      change ((H.reflected h.type name).map (ReflectedMethod.recorded name)).map _ = _
      simp only [lookup, Option.map_map]
      cases hm : H.reflected h.type name with
      | none => rfl
      | some m =>
        have hrun : H.recorded.callReflected name h (m.recorded name) =
            fun L args s => (H.callReflected name h m L args s.1).recorded
              (s.2 ++ (H.entry (.reflected (some h) exports) name L args s.1).toList) := by
          funext L args s
          exact callReflected_recorded H hm exports L args s
        simp only [Option.map_some, Function.comp, Found.recorded, hrun]
        rfl

variable {H} {o : Object} {name : Text}

/-- What an object offers, it offers with the record. -/
theorem offers_recorded {found : Found σ} {run : Legend → List Value → σ → Script σ Value}
    (h : H.Offers o name found run) :
    H.recorded.Offers o name (found.recorded H o name) fun L args s =>
      (run L args s.1).recorded (s.2 ++ (H.entry o name L args s.1).toList) where
  found := by rw [lookup_recorded, h.found]; rfl
  exported := h.exported
  body := by simp [Found.recorded, h.body]

/-- What an object offers with the record, it offers. -/
theorem offers_of_recorded {found' : Found (Recorded σ)}
    {run' : Legend → List Value → Recorded σ → Script (Recorded σ) Value}
    (h : H.recorded.Offers o name found' run') :
    ∃ found run, H.Offers o name found run ∧ found'.rules = found.rules ∧
      run' = fun L args s =>
        (run L args s.1).recorded (s.2 ++ (H.entry o name L args s.1).toList) := by
  have hfound := h.found
  rw [lookup_recorded, Option.map_eq_some_iff] at hfound
  obtain ⟨found, hfound, rfl⟩ := hfound
  have hbody : (found.recorded H o name).body = some run' := h.body
  rw [Found.recorded, Option.map_eq_some_iff] at hbody
  obtain ⟨run, hrun, rfl⟩ := hbody
  exact ⟨found, run, ⟨hfound, h.exported, hrun⟩, rfl, rfl⟩

end Host

/-! ### Actions that differ in the record only -/

/-- An action does the same as another one, the record aside. -/
def Mirrors {α : Type} (x' : Action (Recorded σ) α) (x : Action σ α) : Prop :=
  ∀ s, (x' s).forget = x s.forget

section Actions

variable {α β : Type} {x' : Action (Recorded σ) α} {x : Action σ α}

theorem mirrors_pure (a : α) : Mirrors (pure a : Action (Recorded σ) α) (pure a) := fun _ => rfl

theorem mirrors_raise (alarm : Alarm) :
    Mirrors (Action.raise alarm : Action (Recorded σ) α) (Action.raise alarm) := fun _ => rfl

theorem mirrors_bind (hx : Mirrors x' x) {f' : α → Action (Recorded σ) β} {f : α → Action σ β}
    (hf : ∀ a, Mirrors (f' a) (f a)) : Mirrors (x' >>= f') (x >>= f) := by
  intro s
  change (Action.bind x' f' s).forget = Action.bind x f s.forget
  unfold Action.bind
  rw [← hx s]
  cases x' s with
  | done a t => exact hf a t
  | raised alarm t => rfl
  | exhausted t => rfl

theorem mirrors_bind_store {f' : Store (Recorded σ) → Action (Recorded σ) β}
    {f : Store σ → Action σ β} (h : ∀ s, Mirrors (f' s) (f s.forget)) :
    Mirrors (Action.store >>= f') (Action.store >>= f) := fun s => h s s

theorem mirrors_update {f' : Store (Recorded σ) → α × Store (Recorded σ)}
    {f : Store σ → α × Store σ}
    (h : ∀ s, (f s.forget).1 = (f' s).1 ∧ (f s.forget).2 = (f' s).2.forget) :
    Mirrors (Action.update f') (Action.update f) := by
  intro s
  change Outcome.done (f' s).1 (f' s).2.forget = .done (f s.forget).1 (f s.forget).2
  rw [(h s).1, (h s).2]

theorem mirrors_modify {f' : Store (Recorded σ) → Store (Recorded σ)} {f : Store σ → Store σ}
    (h : ∀ s, f s.forget = (f' s).forget) : Mirrors (Action.modify f') (Action.modify f) := by
  intro s
  change Outcome.done () (f' s).forget = .done () (f s.forget)
  rw [h s]

theorem mirrors_ofExcept (x : Except Text α) :
    Mirrors (Action.ofExcept x : Action (Recorded σ) α) (Action.ofExcept x) := by
  cases x with
  | ok a => exact mirrors_pure a
  | error message => exact mirrors_raise _

theorem mirrors_stamped (v : Value) :
    Mirrors (Action.stamped v : Action (Recorded σ) Value) (Action.stamped v) :=
  mirrors_update fun _ => ⟨rfl, rfl⟩

theorem mirrors_settled (v : Value) :
    Mirrors (Action.settled v : Action (Recorded σ) Value) (Action.settled v) :=
  mirrors_update fun _ => ⟨rfl, rfl⟩

theorem objectText_recorded (H : Host σ) (s : Recorded σ) (o : Object) :
    H.recorded.objectText s o = H.objectText s.1 o := by
  cases o with
  | hollow => rfl
  | direct h => rfl
  | reflected h exports => cases h <;> rfl

/-- Values are printed the same with the record. -/
theorem legend_recorded (M : Machine σ) (s : Store (Recorded σ)) :
    s.legend M.recorded.host = s.forget.legend M.host := by
  have h : M.host.recorded.objectText s.host = M.host.objectText s.host.1 :=
    funext (objectText_recorded M.host s.host)
  simp only [Store.legend, Machine.recorded, h]
  rfl

/-- The validator does not see the record. -/
theorem refusal_recorded (M : Machine σ) (s : Store (Recorded σ)) (rules : Rules)
    (args : List Value) :
    M.recorded.refusal (s.legend M.recorded.host) rules args =
      M.refusal (s.forget.legend M.host) rules args :=
  congrArg (M.refusal · rules args) (legend_recorded M s)

theorem mirrors_bind_legend (M : Machine σ) {f' : Legend → Action (Recorded σ) β}
    {f : Legend → Action σ β} (h : ∀ L, Mirrors (f' L) (f L)) :
    Mirrors (Action.legend M.recorded.host >>= f') (Action.legend M.host >>= f) := by
  intro s
  change (f' (s.legend M.recorded.host) s).forget = f (s.forget.legend M.host) s.forget
  rw [← legend_recorded M s]
  exact h _ s

end Actions

/-! ### Evaluation -/

/-- The ways in which evaluation comes back to itself do the same, the record aside. -/
structure RecurMirrors (r' : Recur (Recorded σ)) (r : Recur σ) : Prop where
  eval : ∀ scope n, Mirrors (r'.eval scope n) (r.eval scope n)
  call : ∀ ref args, Mirrors (r'.call ref args) (r.call ref args)

section Machine

variable {M : Machine σ} {self' : Recur (Recorded σ)} {self : Recur σ}
  (hself : RecurMirrors self' self)

include hself

theorem mirrors_argument (scope : Scope) (n : Node) :
    Mirrors (Machine.argument self' scope n) (Machine.argument self scope n) := by
  have htree (hn : ∀ t, n ≠ .leaf t) :
      Mirrors (Machine.argument self' scope n) (Machine.argument self scope n) := by
    rw [Machine.argument_tree self' scope hn, Machine.argument_tree self scope hn]
    refine mirrors_bind (hself.eval scope n) fun v => ?_
    cases v <;> exact mirrors_pure _
  cases n with
  | absent => exact htree (by simp)
  | form ns => exact htree (by simp)
  | leaf t =>
    by_cases hid : t.type = .identifier
    · rw [Machine.argument_identifier self' scope hid, Machine.argument_identifier self scope hid]
      exact fun s => rfl
    · by_cases herr : t.type = .error
      · by_cases hf : ∃ f, t.value = .error f
        · obtain ⟨f, hf⟩ := hf
          rw [Machine.argument_error self' scope herr hf, Machine.argument_error self scope herr hf]
          exact mirrors_pure _
        · have hf : ∀ f, t.value ≠ .error f := fun f h => hf ⟨f, h⟩
          rw [Machine.argument_invalid self' scope herr hf,
            Machine.argument_invalid self scope herr hf]
          exact mirrors_pure _
      · rw [Machine.argument_literal self' scope hid herr,
          Machine.argument_literal self scope hid herr]
        exact mirrors_pure _

theorem mirrors_arguments (scope : Scope) : ∀ ns : List Node,
    Mirrors (Machine.arguments self' scope ns) (Machine.arguments self scope ns)
  | [] => mirrors_pure _
  | n :: ns => by
    unfold Machine.arguments
    refine mirrors_bind (mirrors_argument hself scope n) fun x => ?_
    cases x with
    | error f => exact mirrors_pure _
    | ok v =>
      refine mirrors_bind (mirrors_arguments scope ns) fun y => ?_
      cases y <;> exact mirrors_pure _

theorem mirrors_body (scope : Scope) : ∀ (ns : List Node) (last : Value),
    Mirrors (Machine.body self' scope last ns) (Machine.body self scope last ns)
  | [], last => by
    unfold Machine.body
    exact mirrors_pure _
  | n :: ns, last => by
    unfold Machine.body
    refine mirrors_bind (hself.eval scope n) fun v => ?_
    cases v with
    | error f => exact mirrors_pure _
    | _ => exact mirrors_body scope ns _

theorem mirrors_callClosure (ref : Nat) (c : Closure) (args : List Value) :
    Mirrors (M.recorded.callClosure self' ref c args) (M.callClosure self ref c args) := by
  unfold Machine.callClosure
  split_ifs
  · exact mirrors_bind_legend M fun L => mirrors_pure _
  · refine mirrors_bind (mirrors_ofExcept _) fun scope => ?_
    cases c.rest with
    | none => exact mirrors_body hself _ _ _
    | some name =>
      exact mirrors_bind (mirrors_ofExcept _) fun items =>
        mirrors_bind (mirrors_stamped _) fun v => mirrors_body hself _ _ _

/-- A recorded script runs as the script does. -/
theorem mirrors_script : ∀ (script : Script σ Value) (calls : List (Invocation σ)),
    Mirrors (M.recorded.script self' (script.recorded calls)) (M.script self script)
  | .done state v, calls => by
    unfold Script.recorded Machine.script
    exact mirrors_bind (mirrors_modify fun _ => rfl) fun _ => mirrors_settled v
  | .raise state alarm, calls => by
    unfold Script.recorded Machine.script
    exact mirrors_bind (mirrors_modify fun _ => rfl) fun _ => mirrors_raise alarm
  | .call state f args next, calls => by
    unfold Script.recorded Machine.script
    refine mirrors_bind (mirrors_modify fun _ => rfl) fun _ =>
      mirrors_bind (hself.call f args) fun v s => ?_
    exact mirrors_script (next s.host.1 v) s.host.2 s
  | .print state v next, calls => by
    unfold Script.recorded Machine.script
    refine mirrors_bind (mirrors_modify fun _ => rfl) fun _ => mirrors_bind_legend M fun L => ?_
    cases v.text L with
    | ok t => exact mirrors_script (next t) calls
    | error message => exact mirrors_raise _
  | .nameOf state f next, calls => by
    unfold Script.recorded Machine.script
    exact mirrors_bind (mirrors_modify fun _ => rfl) fun _ =>
      mirrors_bind_legend M fun L => mirrors_script (next (L.functionName f)) calls

theorem mirrors_call (ref : Nat) (args : List Value) :
    Mirrors (M.recorded.call self' ref args) (M.call self ref args) := by
  unfold Machine.call
  refine mirrors_bind_store fun s => ?_
  have hfunctions : s.forget.functions = s.functions := rfl
  rw [hfunctions]
  cases s.functions[ref]? with
  | none => exact mirrors_raise _
  | some f =>
    cases hb : f.body with
    | builtin b =>
      simp only [hb, ← legend_recorded]
      refine mirrors_bind (mirrors_ofExcept _) fun v => ?_
      split_ifs
      · exact mirrors_stamped v
      · exact mirrors_pure _
    | closure c =>
      simp only [hb]
      exact mirrors_bind (mirrors_callClosure hself ref c args) fun v => mirrors_pure _
    | binder name =>
      simp only [hb, Machine.callBinder_eq]
      split
      · refine mirrors_bind (mirrors_modify fun t => ?_) fun _ => mirrors_pure _
        rename_i v
        cases v <;> rfl
      · exact mirrors_pure _
    | native name =>
      simp only [hb]
      exact mirrors_bind (mirrors_script hself _ _) fun v => mirrors_pure _

theorem mirrors_getKeyword (keyword : Value) (args : List Value) (p : Position) :
    Mirrors (M.recorded.getKeyword self' keyword args p) (M.getKeyword self keyword args p) := by
  rw [Machine.getKeyword_eq, Machine.getKeyword_eq]
  split
  · exact mirrors_bind (mirrors_call hself _ _) fun v => mirrors_pure _
  · exact mirrors_bind (mirrors_call hself _ _) fun v => mirrors_pure _
  · exact mirrors_bind_legend M fun L => mirrors_pure _

theorem mirrors_apply (f : Value) (args : List Value) (p : Position) :
    Mirrors (M.recorded.apply self' f args p) (M.apply self f args p) := by
  unfold Machine.apply
  split
  · exact mirrors_pure _
  · exact mirrors_getKeyword hself _ args p
  · exact mirrors_bind (mirrors_call hself _ args) fun v => mirrors_pure _
  · exact mirrors_bind_legend M fun L => mirrors_bind (mirrors_ofExcept _) fun t => mirrors_pure _

/-! ### Methods -/

theorem mirrors_method (name : Text) (o : Object) (args : List Value) :
    Mirrors (M.recorded.method self' name o args) (M.method self name o args) := by
  by_cases havail : ∃ found run, M.host.Offers o name found run
  · obtain ⟨found, run, h⟩ := havail
    intro s
    rw [Machine.method_available M.recorded self' (Host.offers_recorded h),
      Machine.method_available M self h]
    have hrules : (found.recorded M.host o name).rules = found.rules := rfl
    rw [refusal_recorded, hrules]
    cases M.refusal (s.forget.legend M.host) found.rules args with
    | error message => rfl
    | ok r =>
      cases r with
      | some f => rfl
      | none =>
        simp only [legend_recorded]
        exact mirrors_bind (mirrors_script hself _ _) (fun v => mirrors_pure _) s
  · have hnone : ∀ found run, ¬ M.recorded.host.Offers o name found run := fun found run h => by
      obtain ⟨found, run, h, -⟩ := Host.offers_of_recorded h
      exact havail ⟨found, run, h⟩
    rw [Machine.method_unavailable M self fun found run h => havail ⟨found, run, h⟩,
      Machine.method_unavailable M.recorded self' hnone]
    exact mirrors_pure _

theorem mirrors_methodCall (t : Token) (args : List Value) (p : Position) :
    Mirrors (M.recorded.methodCall self' t args p) (M.methodCall self t args p) := by
  rw [Machine.methodCall_eq, Machine.methodCall_eq]
  dsimp only
  split
  · exact mirrors_pure _
  · refine mirrors_bind (mirrors_method hself _ _ _) fun r => ?_
    cases r with
    | some v => exact mirrors_pure _
    | none => exact mirrors_bind_legend M fun L => mirrors_pure _
  · exact mirrors_bind_legend M fun L => mirrors_bind (mirrors_ofExcept _) fun t => mirrors_pure _

/-! ### Special forms -/

omit hself in
theorem mirrors_compiled {α : Type} (x : Compiled α) {k' : α → Action (Recorded σ) Node}
    {k : α → Action σ Node} (hk : ∀ a, Mirrors (k' a) (k a)) :
    Mirrors (Machine.compiled x k') (Machine.compiled x k) := by
  unfold Machine.compiled
  split
  · exact hk _
  · exact mirrors_pure _
  · exact mirrors_raise _

omit hself in
theorem mirrors_mention (n : Node) : Mirrors (M.recorded.mention n) (M.mention n) :=
  mirrors_bind_legend M fun _ => mirrors_ofExcept _

omit hself in
theorem mirrors_binding (name : Token) (value : Node) :
    Mirrors (Machine.binding name value : Action (Recorded σ) Node) (Machine.binding name value) :=
  mirrors_bind (mirrors_update fun _ => ⟨rfl, rfl⟩) fun _ => mirrors_pure _

theorem mirrors_expandConditional (scope : Scope) (operands : List Node) :
    Mirrors (Machine.expandConditional self' scope operands)
      (Machine.expandConditional self scope operands) := by
  rw [Machine.expandConditional_eq, Machine.expandConditional_eq]
  split
  · refine mirrors_bind (hself.eval scope _) fun v => ?_
    cases v <;> exact mirrors_pure _
  · refine mirrors_bind (hself.eval scope _) fun v => ?_
    cases v <;> exact mirrors_pure _
  · exact mirrors_pure _

omit hself in
theorem mirrors_expandDefine (operands : List Node) :
    Mirrors (M.recorded.expandDefine operands) (M.expandDefine operands) := by
  rw [Machine.expandDefine_eq, Machine.expandDefine_eq]
  split
  · rename_i target value
    cases target.identifier? with
    | some name => exact mirrors_binding name value
    | none => exact mirrors_bind (mirrors_mention target) fun _ => mirrors_pure _
  · exact mirrors_pure _

omit hself in
theorem mirrors_expandLambda (scope : Scope) (operands : List Node) :
    Mirrors (M.recorded.expandLambda scope operands) (M.expandLambda scope operands) := by
  rw [Machine.expandLambda_eq, Machine.expandLambda_eq]
  split
  · exact mirrors_pure _
  · refine mirrors_bind_legend M fun L => mirrors_compiled _ fun r => ?_
    exact mirrors_bind (mirrors_update fun _ => ⟨rfl, rfl⟩) fun _ => mirrors_pure _
  · exact mirrors_bind (mirrors_mention _) fun _ => mirrors_pure _

omit hself in
theorem mirrors_expandQuote (operands : List Node) :
    Mirrors (Machine.expandQuote operands : Action (Recorded σ) Node)
      (Machine.expandQuote operands) := by
  rw [Machine.expandQuote_eq, Machine.expandQuote_eq]
  split
  · exact mirrors_bind (mirrors_settled _) fun _ => mirrors_pure _
  · exact mirrors_pure _

omit hself in
theorem mirrors_expandDefineForm (operands : List Node) :
    Mirrors (M.recorded.expandDefineForm operands) (M.expandDefineForm operands) := by
  rw [Machine.expandDefineForm_eq, Machine.expandDefineForm_eq]
  split
  · rename_i target spec
    cases target.identifier? with
    | some name =>
      refine mirrors_bind_legend M fun L => mirrors_compiled _ fun x => ?_
      exact mirrors_bind (mirrors_update fun _ => ⟨rfl, rfl⟩) fun _ => mirrors_binding _ _
    | none => exact mirrors_bind (mirrors_mention target) fun _ => mirrors_pure _
  · exact mirrors_pure _

theorem mirrors_eagerly (scope : Scope) : ∀ (ns : List Node) (last : Value),
    Mirrors (Machine.eagerly self' scope last ns) (Machine.eagerly self scope last ns)
  | [], last => by
    unfold Machine.eagerly
    exact mirrors_pure _
  | n :: ns, last => by
    unfold Machine.eagerly
    exact mirrors_bind (hself.eval scope n) fun v => mirrors_eagerly scope ns v

theorem mirrors_expand (x : Transformer) (operands : List Node) (scope : Scope) :
    Mirrors (M.recorded.expand self' x operands scope) (M.expand self x operands scope) := by
  unfold Machine.expand
  cases x.expander with
  | special f =>
    cases f with
    | conditional => exact mirrors_expandConditional hself scope operands
    | define => exact mirrors_expandDefine operands
    | lambda => exact mirrors_expandLambda scope operands
    | cond =>
      dsimp only
      rw [Machine.expandCond_eq, Machine.expandCond_eq]
      exact mirrors_pure _
    | quote => exact mirrors_expandQuote operands
    | defineForm => exact mirrors_expandDefineForm operands
  | userDefined t => exact mirrors_bind_legend M fun L => mirrors_ofExcept _
  | lastOperand => exact mirrors_pure _
  | eager => exact mirrors_bind (mirrors_eagerly hself scope operands .nil) fun v => mirrors_pure _

/-! ### Forms and trees -/

theorem mirrors_applyLeaf (t : Token) (f : Value) (args : List Value) (p : Position) :
    Mirrors (M.recorded.applyLeaf self' t f args p) (M.applyLeaf self t f args p) := by
  unfold Machine.applyLeaf
  rw [show M.recorded.isMethodName t = M.isMethodName t from rfl]
  split_ifs
  · exact mirrors_getKeyword hself _ args p
  · exact mirrors_methodCall hself t args p
  · exact mirrors_apply hself f args p

theorem mirrors_bind_arguments (scope : Scope) (operands : List Node)
    {k' : List Value → Action (Recorded σ) Value} {k : List Value → Action σ Value}
    (hk : ∀ args, Mirrors (k' args) (k args)) :
    Mirrors
      (do
        match ← Machine.arguments self' scope operands with
        | .error f => return Value.error f
        | .ok args => k' args)
      (do
        match ← Machine.arguments self scope operands with
        | .error f => return Value.error f
        | .ok args => k args) := by
  refine mirrors_bind (mirrors_arguments hself scope operands) fun x => ?_
  cases x with
  | error f => exact mirrors_pure _
  | ok args => exact hk args

theorem mirrors_form (scope : Scope) (head : Node) (operands : List Node) :
    Mirrors (M.recorded.form self' scope head operands) (M.form self scope head operands) := by
  by_cases hleaf : ∃ t, head = .leaf t
  · obtain ⟨t, rfl⟩ := hleaf
    intro s
    have hhead : M.recorded.headValue scope t s = M.headValue scope t s.forget := rfl
    cases hf : M.headValue scope t s.forget with
    | error f =>
      rw [Machine.form_unresolved _ self' (hhead.trans hf), Machine.form_unresolved M self hf]
      rfl
    | ok f =>
      by_cases hform : ∃ ref, f = .transformer ref
      · obtain ⟨ref, rfl⟩ := hform
        rw [Machine.form_transformer _ self' (hhead.trans hf), Machine.form_transformer M self hf]
        have htransformers : s.forget.transformers = s.transformers := rfl
        rw [htransformers]
        cases s.transformers[ref]? with
        | none => rfl
        | some x => exact mirrors_bind (mirrors_expand hself x operands scope) (hself.eval scope) s
      · have hf' : ∀ ref, f ≠ .transformer ref := fun ref h => hform ⟨ref, h⟩
        rw [Machine.form_plain _ self' (hhead.trans hf) hf', Machine.form_plain M self hf hf']
        exact mirrors_bind_arguments hself scope operands
          (fun args => mirrors_applyLeaf hself t f args _) s
  · have hhead : ∀ t, head ≠ .leaf t := fun t h => hleaf ⟨t, h⟩
    rw [Machine.form_compound _ self' hhead, Machine.form_compound M self hhead]
    refine mirrors_bind_arguments hself scope operands fun args => ?_
    refine mirrors_bind (hself.eval scope head) fun f => ?_
    cases f with
    | error f => exact mirrors_pure _
    | _ => exact mirrors_apply hself _ args _

theorem mirrors_eval (scope : Scope) (n : Node) :
    Mirrors (M.recorded.eval self' scope n) (M.eval self scope n) := by
  cases n with
  | absent => exact mirrors_pure _
  | leaf t =>
    unfold Machine.eval
    exact mirrors_form hself scope _ _
  | form ns =>
    cases ns with
    | nil => exact mirrors_pure _
    | cons head operands => exact mirrors_form hself scope head operands

end Machine

namespace Machine

variable (M : Machine σ)

/-- Evaluation of any depth does the same with the record. -/
theorem recurMirrors_recur : ∀ depth, RecurMirrors (M.recorded.recur depth) (M.recur depth)
  | 0 => ⟨fun _ _ _ => rfl, fun _ _ _ => rfl⟩
  | depth + 1 =>
    have ih := recurMirrors_recur depth
    ⟨fun scope n => mirrors_eval ih scope n, fun ref args => mirrors_call ih ref args⟩

variable (depth : Nat)

theorem recorded_eval (scope : Scope) (n : Node) (s : Store (Recorded σ)) :
    ((M.recorded.recur depth).eval scope n s).forget = (M.recur depth).eval scope n s.forget :=
  (recurMirrors_recur M depth).eval scope n s

theorem recorded_run (tree : Node) (s : Store (Recorded σ)) :
    M.run depth tree s.forget = (M.recorded.run depth tree s).map fun r => (r.1, r.2.forget) := by
  unfold run
  rw [← recorded_eval M depth]
  cases (M.recorded.recur depth).eval [] tree s <;> rfl

/-- A whole forest is evaluated the same with the record. -/
theorem recorded_runAll : ∀ (forest : Forest) (s : Store (Recorded σ)),
    M.runAll depth forest s.forget =
      (M.recorded.runAll depth forest s).map fun r => (r.1, r.2.forget)
  | [], _ => rfl
  | tree :: trees, s => by
    simp only [runAll]
    rw [recorded_run]
    cases M.recorded.run depth tree s with
    | none => rfl
    | some r =>
      have ih := recorded_runAll trees r.2
      simp only [Option.map_some, Option.bind_eq_bind, Option.bind_some, ih]
      cases M.recorded.runAll depth trees r.2 <;> rfl

end Machine

end LittleLisp
