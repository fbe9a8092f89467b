/-
# Faults stop forms

What collecting the arguments of a form does, said without the collector: each argument
either gives a value or fails with a fault, and both come with the store it leaves. A
bound identifier gives whatever it is bound to, a fault included; it fails if it is bound
nowhere and carries nothing. A tree that is no leaf gives the value it evaluates to, and
fails if that is a fault.

A form whose head is no special form has the fault of its first failing argument as its
value, and leaves the store that this argument left: neither what comes after it nor the
head plays any part. A form around such a form has the same fault, and so on to the top.

Key definitions: `Machine.Gives`, `Machine.Fails`, `Machine.Collected`, `Machine.PlainHead`,
`Machine.Tower`.
Key theorems: `Machine.arguments_of_fails`, `Machine.eval_of_tower`, `Machine.fault_stops_form`.
-/
import LittleLisp.Session

namespace LittleLisp

namespace Machine

variable {σ : Type} (M : Machine σ) (self : Recur σ) (scope : Scope)

/-! ### What an argument does -/

/-- A leaf that carries no value of its own. -/
def CarriesNothing (t : Token) : Prop := t.value = .absent ∨ ∃ name, t.value = .undefined name

/-- The fault of an identifier that stands for nothing. -/
def notFound (t : Token) : Fault := .placed .notFound t.pos [t.text, " not found in context"]

/-- An argument gives a value and leaves a store. -/
inductive Gives : Node → Store σ → Value → Store σ → Prop where
  /-- An identifier with a local value, which may be a fault. -/
  | ofScope {t : Token} {v : Value} {s : Store σ} (ht : t.type = .identifier)
      (hv : scope.find? t.text = some v) : Gives (.leaf t) s v s
  /-- An identifier of the module, whose value may be a fault. -/
  | ofModule {t : Token} {v : Value} {s : Store σ} (ht : t.type = .identifier)
      (hl : scope.find? t.text = none) (hv : s.find? t.text = some v) : Gives (.leaf t) s v s
  /-- An identifier that is bound nowhere and carries a value. -/
  | carried {t : Token} {s : Store σ} (ht : t.type = .identifier)
      (hl : scope.find? t.text = none) (hm : s.find? t.text = none) (hv : ¬ CarriesNothing t) :
      Gives (.leaf t) s t.value s
  | literal {t : Token} {s : Store σ} (ht : t.type ≠ .identifier) (he : t.type ≠ .error) :
      Gives (.leaf t) s t.value.orNil s
  | tree {n : Node} {v : Value} {s s' : Store σ} (hn : ∀ t, n ≠ .leaf t)
      (h : self.eval scope n s = .done v s') (hv : ∀ f, v ≠ .error f) : Gives n s v s'

/-- An argument fails with a fault and leaves a store. -/
inductive Fails : Node → Store σ → Fault → Store σ → Prop where
  /-- An identifier that is bound nowhere and carries nothing. -/
  | unbound {t : Token} {s : Store σ} (ht : t.type = .identifier)
      (hl : scope.find? t.text = none) (hm : s.find? t.text = none) (hv : CarriesNothing t) :
      Fails (.leaf t) s (notFound t) s
  /-- A leaf that reports a fault. -/
  | report {t : Token} {f : Fault} {s : Store σ} (ht : t.type = .error)
      (hf : t.value = .error f) : Fails (.leaf t) s f s
  /-- A leaf that should report a fault but does not carry one. -/
  | invalid {t : Token} {s : Store σ} (ht : t.type = .error) (hf : ∀ f, t.value ≠ .error f) :
      Fails (.leaf t) s (.placed .invalidToken t.pos ["invalid token ", t.text.quote]) s
  | tree {n : Node} {f : Fault} {s s' : Store σ} (hn : ∀ t, n ≠ .leaf t)
      (h : self.eval scope n s = .done (.error f) s') : Fails n s f s'

/-- Arguments that all give a value, one after the other. -/
inductive Collected : List Node → Store σ → List Value → Store σ → Prop where
  | nil {s : Store σ} : Collected [] s [] s
  | cons {n : Node} {ns : List Node} {v : Value} {vs : List Value} {s s₁ s₂ : Store σ}
      (h : Gives self scope n s v s₁) (hs : Collected ns s₁ vs s₂) :
      Collected (n :: ns) s (v :: vs) s₂

variable {M self scope} {s s' s₁ s₂ : Store σ}

/-! ### The collector does just that -/

theorem resolve_ok_iff {t : Token} {v : Value} :
    resolve scope t s = .ok v ↔
      scope.find? t.text = some v ∨
        scope.find? t.text = none ∧
          (s.find? t.text = some v ∨ s.find? t.text = none ∧ ¬ CarriesNothing t ∧ t.value = v) := by
  unfold resolve CarriesNothing
  cases hl : scope.find? t.text with
  | some w => simp
  | none =>
    cases hm : s.find? t.text with
    | some w => simp
    | none => cases hv : t.value <;> simp

theorem resolve_error_iff {t : Token} {f : Fault} :
    resolve scope t s = .error f ↔
      scope.find? t.text = none ∧ s.find? t.text = none ∧ CarriesNothing t ∧ notFound t = f := by
  unfold resolve CarriesNothing
  cases hl : scope.find? t.text with
  | some w => simp
  | none =>
    cases hm : s.find? t.text with
    | some w => simp
    | none => cases hv : t.value <;> simp [notFound]

theorem argument_of_gives {n : Node} {v : Value} (h : Gives self scope n s v s') :
    argument self scope n s = .done (.ok v) s' := by
  cases h with
  | ofScope ht hv =>
    simp only [argument_identifier self scope ht, resolve_ok_iff.mpr (Or.inl hv)]
  | ofModule ht hl hv =>
    simp only [argument_identifier self scope ht, resolve_ok_iff.mpr (Or.inr ⟨hl, Or.inl hv⟩)]
  | carried ht hl hm hv =>
    simp only [argument_identifier self scope ht,
      resolve_ok_iff.mpr (Or.inr ⟨hl, Or.inr ⟨hm, hv, rfl⟩⟩)]
  | literal ht he =>
    rw [argument_literal self scope ht he]
    rfl
  | tree hn h hv =>
    rw [argument_tree self scope hn]
    simp only [bind, Action.bind, h]
    rfl

theorem argument_of_fails {n : Node} {f : Fault} (h : Fails self scope n s f s') :
    argument self scope n s = .done (.error f) s' := by
  cases h with
  | unbound ht hl hm hv =>
    simp only [argument_identifier self scope ht, resolve_error_iff.mpr ⟨hl, hm, hv, rfl⟩]
  | report ht hf =>
    rw [argument_error self scope ht hf]
    rfl
  | invalid ht hf =>
    rw [argument_invalid self scope ht hf]
    rfl
  | tree hn h =>
    rw [argument_tree self scope hn]
    simp only [bind, Action.bind, h]
    rfl

variable (self scope) in
/-- A leaf always does one or the other, and changes nothing. -/
theorem gives_or_fails_leaf (t : Token) (s : Store σ) :
    (∃ v, Gives self scope (.leaf t) s v s) ∨ ∃ f, Fails self scope (.leaf t) s f s := by
  by_cases hid : t.type = .identifier
  · cases hres : resolve scope t s with
    | ok v =>
      left
      rcases resolve_ok_iff.mp hres with hv | ⟨hl, hv | ⟨hm, hv, -⟩⟩
      · exact ⟨v, .ofScope hid hv⟩
      · exact ⟨v, .ofModule hid hl hv⟩
      · exact ⟨_, .carried hid hl hm hv⟩
    | error f =>
      obtain ⟨hl, hm, hv, -⟩ := resolve_error_iff.mp hres
      exact Or.inr ⟨_, .unbound hid hl hm hv⟩
  · by_cases herr : t.type = .error
    · right
      by_cases hf : ∃ f, t.value = .error f
      · obtain ⟨f, hf⟩ := hf
        exact ⟨f, .report herr hf⟩
      · exact ⟨_, .invalid herr fun f h => hf ⟨f, h⟩⟩
    · exact Or.inl ⟨_, .literal hid herr⟩

/-- If the collector is done with an argument, the argument gave a value or failed. -/
theorem gives_or_fails {n : Node} {x : Checked Value}
    (h : argument self scope n s = .done x s') :
    (∃ v, x = .ok v ∧ Gives self scope n s v s') ∨ ∃ f, x = .error f ∧ Fails self scope n s f s' := by
  by_cases hn : ∃ t, n = .leaf t
  · obtain ⟨t, rfl⟩ := hn
    rcases gives_or_fails_leaf self scope t s with ⟨v, hv⟩ | ⟨f, hf⟩
    · rw [argument_of_gives hv] at h
      cases h
      exact Or.inl ⟨v, rfl, hv⟩
    · rw [argument_of_fails hf] at h
      cases h
      exact Or.inr ⟨f, rfl, hf⟩
  · have hn : ∀ t, n ≠ .leaf t := fun t ht => hn ⟨t, ht⟩
    cases heval : self.eval scope n s with
    | done v t =>
      by_cases hv : ∃ f, v = .error f
      · obtain ⟨f, rfl⟩ := hv
        have hfails : Fails self scope n s f t := .tree hn heval
        rw [argument_of_fails hfails] at h
        cases h
        exact Or.inr ⟨f, rfl, hfails⟩
      · have hgives : Gives self scope n s v t := .tree hn heval fun f hf => hv ⟨f, hf⟩
        rw [argument_of_gives hgives] at h
        cases h
        exact Or.inl ⟨v, rfl, hgives⟩
    | raised alarm t => simp [argument_tree self scope hn, bind, Action.bind, heval] at h
    | exhausted t => simp [argument_tree self scope hn, bind, Action.bind, heval] at h

theorem arguments_of_collected {ns : List Node} {vs : List Value}
    (h : Collected self scope ns s vs s') : arguments self scope ns s = .done (.ok vs) s' := by
  induction h with
  | nil => rfl
  | cons h _ ih =>
    simp only [arguments, bind, Action.bind, argument_of_gives h, ih]
    rfl

/-- Collecting stops at the first argument that fails, whatever comes after it. -/
theorem arguments_of_fails {pre : List Node} {n : Node} {vs : List Value} {f : Fault}
    (hpre : Collected self scope pre s vs s₁) (hn : Fails self scope n s₁ f s₂)
    (post : List Node) :
    arguments self scope (pre ++ n :: post) s = .done (.error f) s₂ := by
  induction hpre with
  | nil =>
    simp only [List.nil_append, arguments, bind, Action.bind, argument_of_fails hn]
    rfl
  | cons h _ ih =>
    simp only [List.cons_append, arguments, bind, Action.bind, argument_of_gives h, ih hn]
    rfl

/-- Collecting ends because all arguments gave a value, or because one of them was the first to
fail. -/
theorem arguments_cases : ∀ {ns : List Node} {s s' : Store σ} {x : Checked (List Value)},
    arguments self scope ns s = .done x s' →
      (∃ vs, x = .ok vs ∧ Collected self scope ns s vs s') ∨
      ∃ pre n post vs f s₁, x = .error f ∧ ns = pre ++ n :: post ∧
        Collected self scope pre s vs s₁ ∧ Fails self scope n s₁ f s'
  | [], s, s', x, h => by
    cases h
    exact Or.inl ⟨[], rfl, .nil⟩
  | n :: ns, s, s', x, h => by
    unfold arguments at h
    obtain ⟨y, u, hn, h⟩ := Action.bind_eq_done.mp h
    rcases gives_or_fails hn with ⟨v, rfl, hv⟩ | ⟨f, rfl, hf⟩
    · obtain ⟨z, w, hns, hrest⟩ := Action.bind_eq_done.mp h
      rcases arguments_cases hns with ⟨vs, rfl, hvs⟩ | ⟨pre, m, post, vs, f, s₁, rfl, rfl, hpre, hm⟩
      · obtain ⟨rfl, rfl⟩ := Outcome.done.inj hrest
        exact Or.inl ⟨v :: vs, rfl, .cons hv hvs⟩
      · obtain ⟨rfl, rfl⟩ := Outcome.done.inj hrest
        exact Or.inr ⟨n :: pre, m, post, v :: vs, f, s₁, rfl, rfl, .cons hv hpre, hm⟩
    · obtain ⟨rfl, rfl⟩ := Outcome.done.inj h
      exact Or.inr ⟨[], n, ns, [], f, s, rfl, rfl, .nil, hf⟩

/-! ### Forms -/

variable (M) in
/-- The head of a form that is evaluated with its arguments: one that is no leaf, or a leaf that
stands for something other than a transformer. -/
def PlainHead (scope : Scope) (s : Store σ) : Node → Prop
  | .leaf t => ∃ v, M.headValue scope t s = .ok v ∧ ∀ ref, v ≠ .transformer ref
  | _ => True

/-- A form has the fault of its first failing argument. -/
theorem form_of_fails {head : Node} (hhead : M.PlainHead scope s head) {pre : List Node}
    {n : Node} {vs : List Value} {f : Fault} (hpre : Collected self scope pre s vs s₁)
    (hn : Fails self scope n s₁ f s₂) (post : List Node) :
    form M self scope head (pre ++ n :: post) s = .done (.error f) s₂ := by
  have hargs := arguments_of_fails hpre hn post
  by_cases hleaf : ∃ t, head = .leaf t
  · obtain ⟨t, rfl⟩ := hleaf
    obtain ⟨v, hv, hplain⟩ := hhead
    rw [form_plain M self hv hplain]
    simp only [bind, Action.bind, hargs]
    rfl
  · rw [form_compound M self fun t h => hleaf ⟨t, h⟩]
    simp only [bind, Action.bind, hargs]
    rfl

/-- An identifier that stands for nothing in head position: no argument is looked at. -/
theorem form_of_unbound_head {t : Token} (ht : t.type = .identifier)
    (hmethod : M.isMethodName t = false) (hl : scope.find? t.text = none)
    (hm : s.find? t.text = none) (hv : CarriesNothing t) (operands : List Node) :
    form M self scope (.leaf t) operands s = .done (.error (notFound t)) s := by
  refine form_unresolved M self ?_ operands
  have hres : resolve scope t s = .error (notFound t) := resolve_error_iff.mpr ⟨hl, hm, hv, rfl⟩
  simp [headValue, ht, hmethod, hres]

/-- A head that evaluates to a fault: the arguments are evaluated, and nothing is called. -/
theorem form_of_failing_head {head : Node} (hhead : ∀ t, head ≠ .leaf t) {operands : List Node}
    {vs : List Value} {f : Fault} (hargs : Collected self scope operands s vs s₁)
    (hf : self.eval scope head s₁ = .done (.error f) s₂) :
    form M self scope head operands s = .done (.error f) s₂ := by
  rw [form_compound M self hhead]
  simp only [bind, Action.bind, arguments_of_collected hargs, hf]
  rfl

/-! ### Forms inside forms -/

variable (M scope) in
/-- A tower of forms with a fault at its bottom: the form at the bottom fails with it, and each form
above has the one below as its first failing argument, or as its head after all arguments gave a
value. Evaluation may nest as deep as the number says. -/
inductive Tower : Nat → Node → Store σ → Fault → Store σ → Prop where
  | argument {depth : Nat} {head n : Node} (pre : List Node) {post : List Node} {vs : List Value}
      {f : Fault} {s s₁ s₂ : Store σ} (hhead : M.PlainHead scope s head)
      (hpre : Collected (M.recur depth) scope pre s vs s₁)
      (hn : Fails (M.recur depth) scope n s₁ f s₂) :
      Tower (depth + 1) (.form (head :: (pre ++ n :: post))) s f s₂
  | unbound {depth : Nat} {t : Token} {operands : List Node} {s : Store σ}
      (ht : t.type = .identifier) (hmethod : M.isMethodName t = false)
      (hl : scope.find? t.text = none) (hm : s.find? t.text = none) (hv : CarriesNothing t) :
      Tower (depth + 1) (.form (.leaf t :: operands)) s (notFound t) s
  | overArgument {depth : Nat} {head : Node} (pre : List Node) {below post : List Node}
      {vs : List Value} {f : Fault} {s s₁ s₂ : Store σ} (hhead : M.PlainHead scope s head)
      (hpre : Collected (M.recur depth) scope pre s vs s₁)
      (hn : Tower depth (.form below) s₁ f s₂) :
      Tower (depth + 1) (.form (head :: (pre ++ .form below :: post))) s f s₂
  | overHead {depth : Nat} {below operands : List Node} {vs : List Value} {f : Fault}
      {s s₁ s₂ : Store σ} (hargs : Collected (M.recur depth) scope operands s vs s₁)
      (hn : Tower depth (.form below) s₁ f s₂) :
      Tower (depth + 1) (.form (.form below :: operands)) s f s₂

/-- The fault at the bottom is the value of the whole tower. -/
theorem eval_of_tower {depth : Nat} {n : Node} {f : Fault} (h : M.Tower scope depth n s f s') :
    (M.recur depth).eval scope n s = .done (.error f) s' := by
  induction h with
  | argument _ hhead hpre hn => exact form_of_fails hhead hpre hn _
  | unbound ht hmethod hl hm hv => exact form_of_unbound_head ht hmethod hl hm hv _
  | overArgument _ hhead hpre _ ih => exact form_of_fails hhead hpre (.tree (by simp) ih) _
  | overHead hargs _ ih => exact form_of_failing_head (by simp) hargs ih

variable (M) in
/-- A fault stops the form it is met in. Of a form whose head is no special form, with arguments
that all give a value up to one that fails: the form has the very same fault, and the store is the
one that this argument left, whatever the head and the further arguments are. An identifier in head
position that stands for nothing fails before the arguments, and a head that evaluates to a fault
after them, without a call. A fault whose position is known comes out unchanged at the top of any
tower of such forms. -/
theorem fault_stops_form (self : Recur σ) (scope : Scope) (s : Store σ) :
    (∀ (head : Node) (pre : List Node) (n : Node) (post : List Node) (vs : List Value) (f : Fault)
      (s₁ s₂ : Store σ), M.PlainHead scope s head → Collected self scope pre s vs s₁ →
        Fails self scope n s₁ f s₂ →
          M.eval self scope (.form (head :: (pre ++ n :: post))) s = .done (.error f) s₂) ∧
    (∀ (t : Token) (operands : List Node), t.type = .identifier → M.isMethodName t = false →
      scope.find? t.text = none → s.find? t.text = none → CarriesNothing t →
        M.eval self scope (.form (.leaf t :: operands)) s =
          .done (.error (.placed .notFound t.pos [t.text, " not found in context"])) s) ∧
    (∀ (head : Node) (operands : List Node) (vs : List Value) (f : Fault) (s₁ s₂ : Store σ),
      (∀ t, head ≠ .leaf t) → Collected self scope operands s vs s₁ →
        self.eval scope head s₁ = .done (.error f) s₂ →
          M.eval self scope (.form (head :: operands)) s = .done (.error f) s₂) ∧
    ∀ (depth : Nat) (n : Node) (f : Fault) (s' : Store σ), M.Tower [] depth n s f s' →
      f.pos.isUnknown = false → M.run depth n s = some (.error f, s') := by
  refine ⟨?_, ?_, ?_, ?_⟩
  · intro head pre n post vs f s₁ s₂ hhead hpre hn
    exact form_of_fails hhead hpre hn post
  · intro t operands ht hmethod hl hm hv
    exact form_of_unbound_head ht hmethod hl hm hv operands
  · intro head operands vs f s₁ s₂ hhead hargs hf
    exact form_of_failing_head hhead hargs hf
  · intro depth n f s' htower hpos
    simp [run, eval_of_tower htower, Value.located, Fault.located_of_known hpos]

/-- In `(:a :b (:c missing (def x :d)) (def y :e))` the name `missing` stops both forms, so nothing
is defined. -/
theorem unbound_name_stops_nested_forms :
    let word (column : Nat) (text : Text) : Node :=
      .leaf ⟨.identifier, ⟨"user", 1, column⟩, text, .undefined text⟩
    let keyword (column : Nat) (text : Text) : Node :=
      .leaf ⟨.keyword, ⟨"user", 1, column⟩, text, .keyword text⟩
    (Session.start .default .none ()).machine.run 2
      (.form [keyword 2 ":a", keyword 5 ":b",
        .form [keyword 9 ":c", word 12 "missing", .form [word 21 "def", word 25 "x", keyword 27 ":d"]],
        .form [word 33 "def", word 37 "y", keyword 39 ":e"]])
      (.withGlobals "user" ()) =
        some (.error (.placed .notFound ⟨"user", 1, 12⟩ ["missing", " not found in context"]),
          .withGlobals "user" ()) := by
  have hmissing : (Store.withGlobals "user" ()).find? "missing" = none := by
    have h : ((Store.withGlobals "user" ()).find? "missing").isNone = true := by decide +kernel
    exact Option.isNone_iff_eq_none.mp h
  refine (fault_stops_form _ ⟨fun _ _ => Action.exhausted, fun _ _ => Action.exhausted⟩ [] _).2.2.2
    2 _ _ _ ?_ rfl
  refine Tower.overArgument [_] ⟨.absent, rfl, by simp⟩ (.cons (.literal ?_ ?_) .nil) ?_
  · simp
  · simp
  · refine Tower.argument [] ⟨.absent, rfl, by simp⟩ .nil ?_
    exact .unbound rfl rfl hmissing (Or.inr ⟨_, rfl⟩)

end Machine

end LittleLisp
