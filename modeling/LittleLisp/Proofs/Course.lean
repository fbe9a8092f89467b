/-
# The course of a module

What happens to a module over time. Evaluation comes from moment to moment, and definitions happen
in between. A definition begins at the moment at which a `def` or `defsyntax` form is evaluated. The
form is replaced by the call of a new binder of its name, and once the tree in it has a value, the
binder is called with that: this binds the name and, if the value is a function without a name,
names it. All else that can happen leaves the names of the module alone, and the functions and
transformers that there are; new functions may come along, which are closures without a name, or
binders.

So the module only grows. Names stay bound, each to what it was last defined as. A function that has
a name keeps it, and a function that has none gets the name of the first definition that binds it.

Key definitions: `Machine.Introduces`, `Binding.Made`, `Store.Aside`, `Machine.Course`,
`Store.Grown`.
Key theorems: `Binding.Made.defines`, `Machine.Course.trans`, `Machine.Course.split`,
`Machine.Course.grown`, `Store.Grown.names`.
-/
import LittleLisp.Proofs.Special.Define

namespace LittleLisp

variable {σ : Type}

/-! ### Definitions -/

/-- What a definition is about: the moment at which its form is evaluated, the name and the
value. -/
structure Binding (σ : Type) where
  moment : Moment σ
  name : Text
  value : Value

/-- Whether a value is a certain function. -/
def Value.isFunction (ref : Nat) : Value → Bool
  | .function r => r == ref
  | _ => false

theorem Value.isFunction_iff {ref : Nat} {v : Value} :
    v.isFunction ref = true ↔ v = .function ref := by
  cases v <;> simp [isFunction]

/-- At the moment the tree is a `def` or `defsyntax` form of the name, and it is replaced by the
call of a new binder of the name with a tree. -/
structure Machine.Introduces (M : Machine σ) (m : Moment σ) (name : Text) (binder : Nat)
    (p : Position) (tree : Node) (s : Store σ) : Prop where
  form : ∃ (head target : Token) (operand : Node) (ref : Nat) (x : Transformer),
    m.tree = .form [.leaf head, .leaf target, operand] ∧
    target.type = .identifier ∧ target.text = name ∧
    M.headValue m.scope head m.store = .ok (.transformer ref) ∧
    m.store.transformers[ref]? = some x ∧
    (x.expander = .special .define ∨ x.expander = .special .defineForm) ∧
    ∀ self : Recur σ, M.expand self x [.leaf target, operand] m.scope m.store =
      .done (.form [.ofValue (.function binder) p, tree]) s
  fresh : m.store.functions[binder]? = none
  binder : s.functions[binder]? = some ⟨"def", .binder name⟩

/-- The definition leads from one store to the other: the call that its form was replaced by is
made, with the value that the tree in it has just got. -/
structure Binding.Made (M : Machine σ) (d : Binding σ) (t u : Store σ) : Prop where
  call : ∃ (binder : Nat) (p : Position) (tree : Node) (s : Store σ) (depth : Nat),
    M.Introduces d.moment d.name binder p tree s ∧
    Machine.argument (M.recur depth) d.moment.scope tree s = .done (.ok d.value) t ∧
    M.call (M.recur depth) binder [d.value] t = .done d.value.orNil u
  /-- A name is never empty. -/
  name : d.name ≠ []
  /-- A function that is defined is there. -/
  value : ∀ ref, d.value = .function ref → ref < t.functions.size

variable {M : Machine σ} {d : Binding σ} {ds es : List (Binding σ)} {s t u : Store σ}

/-- The call of a binder with one value. -/
theorem Machine.call_binder {self : Recur σ} {ref : Nat} {f : Function} {name : Text}
    (hf : t.functions[ref]? = some f) (hbody : f.body = .binder name) (v : Value) :
    M.call self ref [v] t = .done v.orNil (t.define name v) := by
  simp only [call, bind, Action.bind, Action.store, hf, hbody]
  rfl

theorem Binding.Made.eq_define (h : d.Made M t u) : u = t.define d.name d.value := by
  obtain ⟨binder, p, tree, s, depth, hform, hvalue, hcall⟩ := h.call
  have hgrows : s.Grows t := by
    have hargument : s.Grows (Machine.argument (M.recur depth) d.moment.scope tree s).store :=
      Machine.family_argument Action.growing_compositional (M.recur_grows depth) tree s
    rwa [hvalue] at hargument
  obtain ⟨f, hf, hbody⟩ := hgrows.bodies binder _ hform.binder
  rw [Machine.call_binder hf hbody d.value] at hcall
  exact (Outcome.done.inj hcall).2.symm

/-- A definition binds its name and names its value, and touches nothing else. -/
theorem Binding.Made.defines (h : d.Made M t u) : t.Defines d.name d.value u := by
  rw [h.eq_define]
  exact t.defines_define d.name d.value

/-- The call of a function with the value of one tree. -/
theorem Machine.form_ofFunction (self : Recur σ) (scope : Scope) (ref : Nat) (p : Position)
    (tree : Node) (s : Store σ) :
    form M self scope (.ofValue (.function ref) p) [tree] s =
      (do
        match ← argument self scope tree with
        | .error f => return Value.error f
        | .ok v =>
          let w ← M.call self ref [v]
          return w.located (Node.form [.ofValue (.function ref) p, tree]).position) s := by
  have hvalue := headValue_ofFunction (M := M) scope ref p s
  have hhead : Node.ofValue (.function ref) p = .leaf ⟨.literal, p, [], .function ref⟩ := rfl
  rw [hhead, form_plain M self hvalue (by simp)]
  simp only [arguments, bind, Action.bind]
  cases argument self scope tree s with
  | done x t => cases x <;> rfl
  | _ => rfl

/-- The definition is what the evaluation of its form comes to. -/
theorem Binding.Made.evaluates (h : d.Made M t u) : ∃ depth w,
    (M.recur depth).eval d.moment.scope d.moment.tree d.moment.store = .done w u := by
  obtain ⟨binder, p, tree, s, depth, hform, hvalue, hcall⟩ := h.call
  obtain ⟨head, target, operand, ref, x, htree, -, -, hhead, hx, -, hexpand⟩ := hform.form
  let call : Node := .form [.ofValue (.function binder) p, tree]
  have hreplaced : (M.recur (depth + 2)).eval d.moment.scope d.moment.tree d.moment.store =
      (M.recur (depth + 1)).eval d.moment.scope call s := by
    rw [htree]
    change M.form _ _ (.leaf head) [.leaf target, operand] _ = _
    rw [Machine.form_transformer M _ hhead, hx]
    simp only [bind, Action.bind, hexpand]
    rfl
  have hcalled : (M.recur (depth + 1)).eval d.moment.scope call s =
      .done (d.value.orNil.located call.position) u := by
    change M.form _ _ (.ofValue (.function binder) p) [tree] s = _
    rw [Machine.form_ofFunction]
    simp only [bind, Action.bind, hvalue, hcall]
    rfl
  exact ⟨depth + 2, _, hreplaced.trans hcalled⟩

/-! ### The course of a module -/

/-- The names of the module are left alone, and so are the functions and transformers that there
are. New functions are closures without a name, or binders. -/
structure Store.Aside (s t : Store σ) : Prop where
  module : t.module = s.module
  bindings : t.bindings = s.bindings
  functions : ∀ (ref : Nat) (f : Function), s.functions[ref]? = some f →
    t.functions[ref]? = some f
  transformers : ∀ (ref : Nat) (x : Transformer), s.transformers[ref]? = some x →
    t.transformers[ref]? = some x
  new : ∀ (ref : Nat) (f : Function), s.functions[ref]? = none → t.functions[ref]? = some f →
    (∃ c, f = ⟨[], .closure c⟩) ∨ ∃ name, f = ⟨"def", .binder name⟩

theorem Store.Aside.refl (s : Store σ) : s.Aside s :=
  ⟨rfl, rfl, fun _ _ h => h, fun _ _ h => h, fun ref f hnone hf => by simp [hnone] at hf⟩

theorem Store.Aside.trans (h : s.Aside t) (h' : t.Aside u) : s.Aside u where
  module := h'.module.trans h.module
  bindings := h'.bindings.trans h.bindings
  functions ref f hf := h'.functions ref f (h.functions ref f hf)
  transformers ref x hx := h'.transformers ref x (h.transformers ref x hx)
  new ref f hnone hf := by
    cases ht : t.functions[ref]? with
    | none => exact h'.new ref f ht hf
    | some g =>
      obtain rfl : g = f := Option.some.inj ((h'.functions ref g ht).symm.trans hf)
      exact h.new ref g hnone ht

theorem Store.Aside.withStamps {n : Nat} : s.Aside { s with stamps := n } :=
  ⟨rfl, rfl, fun _ _ h => h, fun _ _ h => h, fun ref f hnone hf => by simp [hnone] at hf⟩

theorem Store.Aside.withHost {state : σ} : s.Aside { s with host := state } :=
  ⟨rfl, rfl, fun _ _ h => h, fun _ _ h => h, fun ref f hnone hf => by simp [hnone] at hf⟩

/-- A new function leaves those that there are as they are. -/
theorem Store.functions_addFunction {ref : Nat} {g : Function} (hg : s.functions[ref]? = some g)
    (f : Function) : (s.addFunction f).2.functions[ref]? = some g := by
  have href : ref ≠ s.functions.size := Nat.ne_of_lt (Array.getElem?_eq_some_iff.mp hg).1
  simpa [Store.addFunction, Array.getElem?_push, href] using hg

theorem Store.aside_addFunction {f : Function}
    (hf : (∃ c, f = ⟨[], .closure c⟩) ∨ ∃ name, f = ⟨"def", .binder name⟩) :
    s.Aside (s.addFunction f).2 where
  module := rfl
  bindings := rfl
  functions _ _ hg := Store.functions_addFunction hg f
  transformers _ _ hx := hx
  new ref g hnone hg := by
    simp only [Store.addFunction, Array.getElem?_push] at hg
    split_ifs at hg
    · exact Option.some.inj hg ▸ hf
    · simp [hnone] at hg

theorem Store.aside_addTransformer (x : Transformer) : s.Aside (s.addTransformer x).2 where
  module := rfl
  bindings := rfl
  functions _ _ hf := hf
  transformers := (s.extends_addTransformer x).transformers
  new ref f hnone hf := by
    have hsame : s.functions[ref]? = some f := hf
    rw [hnone] at hsame
    cases hsame

/-- What happens: evaluation comes to a moment, or a definition binds its name. -/
inductive Event (σ : Type) where
  | moment (m : Moment σ)
  | define (d : Binding σ)

/-- The definitions among some events. -/
def Event.bindings (es : List (Event σ)) : List (Binding σ) :=
  es.filterMap fun
    | .define d => some d
    | .moment _ => none

/-- Events lead from one store to another, in this order, with nothing else in between that would
touch the module. A definition that is made has begun before, at a moment among the events or at one
in `P`. -/
inductive Machine.Course (M : Machine σ) (P : Moment σ → Prop) (s : Store σ) :
    List (Event σ) → Store σ → Prop where
  | start : Course M P s [] s
  | aside {t u : Store σ} {es : List (Event σ)} (h : Course M P s es t) (hu : t.Aside u) :
      Course M P s es u
  | moment {m : Moment σ} {es : List (Event σ)} (h : Course M P s es m.store) :
      Course M P s (es ++ [.moment m]) m.store
  | define {t u : Store σ} {es : List (Event σ)} {d : Binding σ} (h : Course M P s es t)
      (hd : d.Made M t u) (hm : P d.moment ∨ .moment d.moment ∈ es) :
      Course M P s (es ++ [.define d]) u

namespace Machine.Course

variable {P P' : Moment σ → Prop} {es fs : List (Event σ)}

theorem of_aside (h : s.Aside t) : M.Course P s [] t := .aside .start h

theorem mono (hP : ∀ m, P m → P' m) (h : M.Course P s es t) : M.Course P' s es t := by
  induction h with
  | start => exact .start
  | aside _ hu ih => exact .aside ih hu
  | moment _ ih => exact .moment ih
  | define _ hd hm ih => exact .define ih hd (hm.imp (hP _) id)

/-- One course after the other; what began in the first may be made in the second. -/
theorem trans (h : M.Course P s es t)
    (h' : M.Course (fun m => P m ∨ .moment m ∈ es) t fs u) : M.Course P s (es ++ fs) u := by
  induction h' with
  | start => rwa [List.append_nil]
  | aside _ hu ih => exact .aside ih hu
  | moment _ ih =>
    rw [← List.append_assoc]
    exact .moment ih
  | define _ hd hm ih =>
    rw [← List.append_assoc]
    refine .define ih hd ?_
    rwa [List.mem_append, ← or_assoc]

/-- Every part of a course is a course. -/
theorem split (h : M.Course P s (es ++ fs) u) :
    ∃ t, M.Course P s es t ∧ M.Course (fun m => P m ∨ .moment m ∈ es) t fs u := by
  generalize hall : es ++ fs = all at h
  induction h generalizing fs with
  | start =>
    obtain ⟨rfl, rfl⟩ := List.append_eq_nil_iff.mp hall
    exact ⟨s, .start, .start⟩
  | aside _ hu ih =>
    obtain ⟨t, hes, hfs⟩ := ih hall
    exact ⟨t, hes, .aside hfs hu⟩
  | @moment m all h ih =>
    rcases List.eq_nil_or_concat fs with rfl | ⟨gs, e, rfl⟩
    · rw [List.append_nil] at hall
      exact ⟨_, hall ▸ .moment h, .start⟩
    · rw [List.concat_eq_append, ← List.append_assoc] at hall
      obtain ⟨hinit, he⟩ := List.append_inj' hall rfl
      obtain rfl := List.singleton_inj.mp he
      obtain ⟨t, hes, hgs⟩ := ih hinit
      exact ⟨t, hes, List.concat_eq_append ▸ .moment hgs⟩
  | @define t u all d h hd hm ih =>
    rcases List.eq_nil_or_concat fs with rfl | ⟨gs, e, rfl⟩
    · rw [List.append_nil] at hall
      exact ⟨_, hall ▸ .define h hd hm, .start⟩
    · rw [List.concat_eq_append, ← List.append_assoc] at hall
      obtain ⟨rfl, he⟩ := List.append_inj' hall rfl
      obtain rfl := List.singleton_inj.mp he
      obtain ⟨t, hes, hgs⟩ := ih rfl
      refine ⟨t, hes, List.concat_eq_append ▸ .define hgs hd ?_⟩
      rwa [List.mem_append, ← or_assoc] at hm

/-- At the last event of a course, if it is a moment, the store is that of the moment. -/
theorem at_moment {m : Moment σ} (h : M.Course P s (es ++ [.moment m]) t) :
    M.Course P s es m.store ∧ M.Course P' m.store [] t := by
  generalize hall : es ++ [.moment m] = all at h
  induction h with
  | start => simp at hall
  | aside _ hu ih => exact ⟨(ih hall).1, .aside (ih hall).2 hu⟩
  | @moment m' all h _ =>
    obtain ⟨rfl, he⟩ := List.append_inj' hall rfl
    obtain rfl := Event.moment.inj (List.singleton_inj.mp he)
    exact ⟨h, .start⟩
  | define =>
    obtain ⟨-, he⟩ := List.append_inj' hall rfl
    cases List.singleton_inj.mp he

/-- A course leads to each of its moments, and on from there. -/
theorem split_moment {m : Moment σ} (h : M.Course P s (es ++ .moment m :: fs) u) :
    M.Course P s es m.store ∧
      M.Course (fun m' => P m' ∨ .moment m' ∈ es ++ [.moment m]) m.store fs u := by
  have hall : es ++ .moment m :: fs = (es ++ [.moment m]) ++ fs := by simp
  obtain ⟨t, hes, hfs⟩ := (hall ▸ h).split
  obtain ⟨hbefore, hmoment⟩ := hes.at_moment
  exact ⟨hbefore, hmoment.trans (hfs.mono fun _ => Or.inl)⟩

theorem grows (h : M.Course P s es t) : s.Grows t := by
  induction h with
  | start => exact .refl s
  | aside _ hu ih =>
    exact ih.trans ⟨fun ref f hf => ⟨f, hu.functions ref f hf, rfl⟩, hu.transformers⟩
  | moment _ ih => exact ih
  | define _ hd _ ih =>
    rw [hd.eq_define]
    exact ih.trans (Store.extends_define _ _ _).grows

end Machine.Course

/-! ### What definitions make of a module -/

/-- What a name was last defined as. -/
def Binding.last (name : Text) (ds : List (Binding σ)) : Option Value :=
  (ds.reverse.find? fun d => d.name == name).map Binding.value

/-- The name of the first definition that binds a function; without one there is no name. -/
def Binding.first (ref : Nat) (ds : List (Binding σ)) : Text :=
  ((ds.find? fun d => d.value.isFunction ref).map Binding.name).getD []

theorem Binding.last_append (name : Text) (ds : List (Binding σ)) (d : Binding σ) :
    last name (ds ++ [d]) = if d.name = name then some d.value else last name ds := by
  unfold last
  rw [List.reverse_append, List.reverse_singleton, List.singleton_append, List.find?_cons]
  by_cases h : d.name = name
  · simp [h]
  · have hne : (d.name == name) = false := by simpa using h
    rw [hne, if_neg h]

theorem Binding.first_of_none {ref : Nat} (h : ∀ d ∈ ds, d.value ≠ .function ref) :
    first ref ds = [] := by
  have hnone : (ds.find? fun d => d.value.isFunction ref) = none := by
    rw [List.find?_eq_none]
    exact fun d hd hvalue => h d hd (Value.isFunction_iff.mp hvalue)
  rw [first, hnone]
  rfl

theorem Binding.first_append (ref : Nat) (hnames : ∀ d ∈ ds, d.name ≠ []) (d : Binding σ) :
    first ref (ds ++ [d]) =
      if first ref ds = [] ∧ d.value.isFunction ref then d.name else first ref ds := by
  unfold first
  rw [List.find?_append]
  cases hfind : ds.find? fun d => d.value.isFunction ref with
  | some e =>
    have hname : e.name ≠ [] := hnames e (List.mem_of_find?_eq_some hfind)
    simp [hname]
  | none => cases hvalue : d.value.isFunction ref <;> simp [hvalue]

/-- What definitions, and nothing else, have made of a module. -/
structure Store.Grown (s : Store σ) (ds : List (Binding σ)) (t : Store σ) : Prop where
  module : t.module = s.module
  /-- A name is bound to what it was last defined as, or else to what it was bound to before. -/
  found : ∀ name, t.find? name = (Binding.last name ds).or (s.find? name)
  /-- A function that has a name keeps it. One without a name gets that of the first definition that
  binds it. Nothing else about a function changes. -/
  functions : ∀ (ref : Nat) (f : Function), s.functions[ref]? = some f →
    t.functions[ref]? =
      some { f with name := if f.name = [] then Binding.first ref ds else f.name }
  /-- So it is with new functions, which are closures that start without a name, or binders. -/
  new : ∀ (ref : Nat) (f : Function), s.functions[ref]? = none → t.functions[ref]? = some f →
    (∃ c, f = ⟨Binding.first ref ds, .closure c⟩) ∨ ∃ name, f = ⟨"def", .binder name⟩
  transformers : ∀ (ref : Nat) (x : Transformer), s.transformers[ref]? = some x →
    t.transformers[ref]? = some x

/-- A definition names its value if that is a function without a name. -/
theorem Store.Defines.functions {name : Text} {v : Value} (h : t.Defines name v u) {ref : Nat}
    {f : Function} (hf : t.functions[ref]? = some f) :
    u.functions[ref]? =
      some { f with name := if f.name = [] ∧ v.isFunction ref then name else f.name } := by
  by_cases hv : v = .function ref
  · have hvalue : v.isFunction ref = true := Value.isFunction_iff.mpr hv
    rw [h.named ref hv, hf]
    by_cases hname : f.name = [] <;> simp [hname, hvalue]
  · have hvalue : ¬ v.isFunction ref = true := mt Value.isFunction_iff.mp hv
    rw [h.kept ref hv, hf]
    simp [hvalue]

theorem Store.grown_refl (s : Store σ) : s.Grown [] s where
  module := rfl
  found _ := rfl
  functions ref f hf := by
    have hfirst : Binding.first ref ([] : List (Binding σ)) = [] := rfl
    rw [hf, hfirst]
    by_cases hname : f.name = []
    · rw [if_pos hname, ← hname]
    · rw [if_neg hname]
  new ref f hnone hf := by
    rw [hnone] at hf
    cases hf
  transformers _ _ hx := hx

theorem Store.Grown.aside (h : s.Grown ds t)
    (hvalues : ∀ d ∈ ds, ∀ ref, d.value = .function ref → ref < t.functions.size)
    (hu : t.Aside u) : s.Grown ds u where
  module := hu.module.trans h.module
  found name := by
    rw [← h.found name, Store.find?, hu.bindings, Store.find?]
  functions ref f hf := hu.functions ref _ (h.functions ref f hf)
  new ref f hnone hf := by
    cases ht : t.functions[ref]? with
    | some g =>
      have hsame : u.functions[ref]? = some g := hu.functions ref g ht
      rw [hsame] at hf
      exact Option.some.inj hf ▸ h.new ref g hnone ht
    | none =>
      -- nothing has been able to bind a function before it was there
      have hfirst : Binding.first ref ds = [] := by
        refine Binding.first_of_none fun d hd hvalue => ?_
        have hlt := hvalues d hd ref hvalue
        rw [Array.getElem?_eq_none_iff] at ht
        omega
      rw [hfirst]
      exact hu.new ref f ht hf
  transformers ref x hx := hu.transformers ref x (h.transformers ref x hx)

theorem Store.Grown.define (h : s.Grown ds t) (hnames : ∀ d ∈ ds, d.name ≠ [])
    (hd : t.Defines d.name d.value u) : s.Grown (ds ++ [d]) u where
  module := by
    rw [hd.rest]
    exact h.module
  found name := by
    rw [Binding.last_append]
    by_cases hname : d.name = name
    · rw [if_pos hname, ← hname, hd.bound]
      rfl
    · rw [if_neg hname, hd.others name (Ne.symm hname), h.found name]
  functions ref f hf := by
    rw [hd.functions (h.functions ref f hf), Binding.first_append ref hnames]
    by_cases hname : f.name = []
    · simp only [hname, if_true]
    · simp [hname]
  new ref f hnone hf := by
    cases ht : t.functions[ref]? with
    | some g =>
      rw [hd.functions ht] at hf
      obtain rfl := Option.some.inj hf
      rw [Binding.first_append ref hnames]
      rcases h.new ref g hnone ht with ⟨c, rfl⟩ | ⟨name, rfl⟩
      · exact Or.inl ⟨c, rfl⟩
      · have hname : ("def" : Text) ≠ [] := by decide
        exact Or.inr ⟨name, by simp [hname]⟩
    | none =>
      -- a definition makes no functions
      have hsame : u.functions[ref]? = none := by
        by_cases hv : d.value = .function ref
        · rw [hd.named ref hv, ht]
          rfl
        · rw [hd.kept ref hv, ht]
      rw [hsame] at hf
      cases hf
  transformers ref x hx := by
    rw [hd.rest]
    exact h.transformers ref x hx

theorem Bindings.mem_names_iff {α : Type} {name : Text} {bs : Bindings α} :
    name ∈ bs.names ↔ bs.find? name ≠ none := by
  rw [names, Text.sort, List.mem_mergeSort]
  induction bs with
  | nil => simp [find?]
  | cons b bs ih =>
    obtain ⟨n, a⟩ := b
    rw [List.map_cons, List.mem_cons, ih, find?]
    by_cases hname : name = n <;> simp [hname]

/-- Names stay bound. -/
theorem Store.Grown.names (h : s.Grown ds t) : s.bindings.names ⊆ t.bindings.names := by
  intro name hname
  rw [Bindings.mem_names_iff] at hname ⊢
  have hfound : t.bindings.find? name = (Binding.last name ds).or (s.bindings.find? name) :=
    h.found name
  rw [hfound]
  cases Binding.last name ds with
  | none => exact hname
  | some v => simp

/-- A function that has a name stays as it is. -/
theorem Store.Grown.named (h : s.Grown ds t) {ref : Nat} {f : Function}
    (hf : s.functions[ref]? = some f) (hname : f.name ≠ []) : t.functions[ref]? = some f := by
  rw [h.functions ref f hf, if_neg hname]

/-- All definitions of a course have names, and the functions that they bind are there. -/
theorem Machine.Course.bindings {P : Moment σ → Prop} {es : List (Event σ)}
    (h : M.Course P s es t) : ∀ d ∈ Event.bindings es, d.name ≠ [] ∧
      ∀ ref, d.value = .function ref → ref < t.functions.size := by
  induction h with
  | start => exact fun _ hd => absurd hd List.not_mem_nil
  | aside _ hu ih =>
    refine fun d hd => ⟨(ih d hd).1, fun ref href => ?_⟩
    have hthere := Array.getElem?_eq_getElem ((ih d hd).2 ref href)
    exact (Array.getElem?_eq_some_iff.mp (hu.functions ref _ hthere)).1
  | moment _ ih => simpa [Event.bindings] using ih
  | @define t u es d _ hd _ ih =>
    have hsize : u.functions.size = t.functions.size := by
      rw [hd.eq_define]
      cases d.value <;> simp [Store.define, Store.bind, Store.nameFunction]
    have hall : Event.bindings (es ++ [.define d]) = Event.bindings es ++ [d] := by
      simp [Event.bindings]
    rw [hall, List.forall_mem_append, hsize]
    exact ⟨ih, by simpa using ⟨hd.name, hd.value⟩⟩

/-- **A module only grows**, by the definitions in its course. -/
theorem Machine.Course.grown {P : Moment σ → Prop} {es : List (Event σ)} (h : M.Course P s es t) :
    s.Grown (Event.bindings es) t := by
  induction h with
  | start => exact s.grown_refl
  | aside h hu ih => exact ih.aside (fun d hd => (h.bindings d hd).2) hu
  | moment _ ih => simpa [Event.bindings] using ih
  | @define t u es d h hd _ ih =>
    have hall : Event.bindings (es ++ [.define d]) = Event.bindings es ++ [d] := by
      simp [Event.bindings]
    rw [hall]
    exact ih.define (fun d hd => (h.bindings d hd).1) hd.defines

end LittleLisp
