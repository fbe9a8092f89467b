/-
# From earlier to later

What a course makes of a module from any point to any later one. Names stay bound. If a name comes
to stand for something else, a definition of that name has happened in between. A function keeps its
body, and its name too unless that is empty, and then it gets the name of the first definition in
all of the course that binds it.

Key definitions: `Event.FirstDefines`, `Machine.Stretch`, `Store.Later`, `Machine.OnlyGrows`.
Key theorems: `Machine.Course.split_define`, `Machine.Stretch.later`, `Machine.Course.onlyGrows`.
-/
import LittleLisp.Proofs.Course

namespace LittleLisp

variable {σ : Type} {M : Machine σ} {P : Moment σ → Prop} {s x y z : Store σ} {d : Binding σ}
  {ds es before between after : List (Event σ)}

/-! ### Definitions among events -/

namespace Event

/-- The events come to the moment. -/
def Reach (es : List (Event σ)) (m : Moment σ) : Prop := .moment m ∈ es

/-- The first of the definitions among the events that binds a function is one of the name. -/
def FirstDefines (es : List (Event σ)) (ref : Nat) (name : Text) : Prop :=
  ∃ before d after, es = before ++ .define d :: after ∧ d.value = .function ref ∧ d.name = name ∧
    ∀ e, .define e ∈ before → e.value ≠ .function ref

theorem mem_bindings : d ∈ bindings es ↔ .define d ∈ es := by
  simp only [bindings, List.mem_filterMap]
  constructor
  · rintro ⟨e, he, hd⟩
    cases e with
    | moment m => cases hd
    | define d' => exact Option.some.inj hd ▸ he
  · exact fun h => ⟨_, h, rfl⟩

theorem bindings_append (es fs : List (Event σ)) :
    bindings (es ++ fs) = bindings es ++ bindings fs := List.filterMap_append

/-- Where a definition stands among the definitions, it stands among the events. -/
theorem split_bindings {ds es' : List (Binding σ)} (h : bindings es = ds ++ d :: es') :
    ∃ before after, es = before ++ .define d :: after ∧ bindings before = ds := by
  obtain ⟨before, rest, rfl, hbefore, hrest⟩ := List.filterMap_eq_append_iff.mp h
  obtain ⟨skipped, e, after, rfl, hskipped, he, -⟩ := List.filterMap_eq_cons_iff.mp hrest
  refine ⟨before ++ skipped, after, ?_, ?_⟩
  · cases e with
    | moment m => cases he
    | define d' => rw [Option.some.inj he, List.append_assoc]
  · have hnone : bindings skipped = [] := List.filterMap_eq_nil_iff.mpr hskipped
    rw [bindings_append, hnone, List.append_nil]
    exact hbefore

end Event

open Event (FirstDefines Reach mem_bindings split_bindings)

theorem Binding.first_eq_nil_iff {ref : Nat} {ds : List (Binding σ)}
    (hnames : ∀ d ∈ ds, d.name ≠ []) : first ref ds = [] ↔ ∀ d ∈ ds, d.value ≠ .function ref := by
  refine ⟨fun h d hd hvalue => ?_, first_of_none⟩
  have hsome : (ds.find? fun d => d.value.isFunction ref).isSome = true :=
    List.find?_isSome.mpr ⟨d, hd, Value.isFunction_iff.mpr hvalue⟩
  obtain ⟨e, he⟩ := Option.isSome_iff_exists.mp hsome
  rw [first, he] at h
  exact hnames e (List.mem_of_find?_eq_some he) h

/-- A name that comes from definitions is that of the first one. -/
theorem Binding.first_defines {ref : Nat} (h : first ref (Event.bindings es) ≠ []) :
    FirstDefines es ref (first ref (Event.bindings es)) := by
  cases hfind : (Event.bindings es).find? fun d => d.value.isFunction ref with
  | none => simp [first, hfind] at h
  | some d =>
    obtain ⟨hd, ds, es', hsplit, hbefore⟩ := List.find?_eq_some_iff_append.mp hfind
    obtain ⟨before, after, hes, rfl⟩ := split_bindings hsplit
    refine ⟨before, d, after, hes, Value.isFunction_iff.mp hd, by simp [first, hfind], ?_⟩
    intro e he hvalue
    have hnot := hbefore e (mem_bindings.mpr he)
    rw [Value.isFunction_iff.mpr hvalue] at hnot
    cases hnot

/-! ### Points of a course -/

namespace Machine.Course

/-- At the last event of a course, if it is a definition, this is made. -/
theorem at_define {P' : Moment σ → Prop} (h : M.Course P s (es ++ [.define d]) z) :
    ∃ x y, M.Course P s es x ∧ d.Made M x y ∧ (P d.moment ∨ .moment d.moment ∈ es) ∧
      M.Course P' y [] z := by
  generalize hall : es ++ [.define d] = all at h
  induction h with
  | start => simp at hall
  | aside _ hu ih =>
    obtain ⟨x, y, hx, hd, hm, hrest⟩ := ih hall
    exact ⟨x, y, hx, hd, hm, .aside hrest hu⟩
  | moment =>
    obtain ⟨-, he⟩ := List.append_inj' hall rfl
    cases List.singleton_inj.mp he
  | define h hd hm _ =>
    obtain ⟨rfl, he⟩ := List.append_inj' hall rfl
    obtain rfl := Event.define.inj (List.singleton_inj.mp he)
    exact ⟨_, _, h, hd, hm, .start⟩

/-- A course leads to each of its definitions, and on from there. -/
theorem split_define (h : M.Course P s (before ++ .define d :: after) z) :
    ∃ x y, M.Course P s before x ∧ d.Made M x y ∧ (P d.moment ∨ .moment d.moment ∈ before) ∧
      M.Course (fun m => P m ∨ .moment m ∈ before ++ [.define d]) y after z := by
  have hall : before ++ .define d :: after = (before ++ [.define d]) ++ after := by simp
  obtain ⟨t, hbefore, hafter⟩ := (hall ▸ h).split
  obtain ⟨x, y, hx, hd, hm, hrest⟩ := hbefore.at_define
  exact ⟨x, y, hx, hd, hm, hrest.trans (hafter.mono fun _ => Or.inl)⟩

/-- What a course can count on has begun before it or in it. -/
theorem reach (h : M.Course (fun m => Reach before m ∨ .moment m ∈ es) y after z) :
    M.Course (Reach (before ++ es)) y after z := by
  refine h.mono fun m hm => ?_
  rw [Reach, List.mem_append]
  exact hm

/-- Definitions before have bound no function that still has no name. -/
theorem nameless (h : M.Course P s es y) {ref : Nat} {f : Function}
    (hf : y.functions[ref]? = some f) (hname : f.name = []) :
    ∀ d ∈ Event.bindings es, d.value ≠ .function ref := by
  have hnames : ∀ d ∈ Event.bindings es, d.name ≠ [] := fun d hd => (h.bindings d hd).1
  rw [← Binding.first_eq_nil_iff hnames]
  cases hold : s.functions[ref]? with
  | some g =>
    have hsame := h.grown.functions ref g hold
    rw [hf] at hsame
    obtain rfl := Option.some.inj hsame
    by_cases hg : g.name = []
    · simpa only [if_pos hg] using hname
    · simp only [if_neg hg] at hname
      exact absurd hname hg
  | none =>
    rcases h.grown.new ref f hold hf with ⟨c, rfl⟩ | ⟨name, rfl⟩
    · exact hname
    · cases hname

end Machine.Course

/-- A course up to a point, from there to a later one, and on to the end. -/
structure Machine.Stretch (M : Machine σ) (s : Store σ) (before : List (Event σ)) (y : Store σ)
    (between : List (Event σ)) (z : Store σ) (after : List (Event σ)) (x : Store σ) : Prop where
  reached : M.Course (Reach []) s before y
  stretch : M.Course (Reach before) y between z
  rest : M.Course (Reach (before ++ between)) z after x

/-- What a later store of a course has in common with an earlier one. -/
structure Store.Later (before : List (Event σ)) (y : Store σ) (between : List (Event σ))
    (z : Store σ) : Prop where
  names : y.bindings.names ⊆ z.bindings.names
  /-- Only a definition of a name changes what it stands for. -/
  changed : ∀ name, z.find? name ≠ y.find? name →
    ∃ d, .define d ∈ between ∧ d.name = name ∧ z.find? name = some d.value
  /-- A function with a name stays as it is. -/
  named : ∀ (ref : Nat) (f : Function), y.functions[ref]? = some f → f.name ≠ [] →
    z.functions[ref]? = some f
  /-- A function without a name stays so, or gets the name of the first definition that binds it. -/
  nameless : ∀ (ref : Nat) (f : Function), y.functions[ref]? = some f → f.name = [] →
    z.functions[ref]? = some f ∨
      ∃ name, name ≠ [] ∧ z.functions[ref]? = some { f with name } ∧
        FirstDefines (before ++ between) ref name
  /-- New functions are closures, of which the same is true, or binders. -/
  new : ∀ (ref : Nat) (f : Function), y.functions[ref]? = none → z.functions[ref]? = some f →
    (∃ c, f.body = .closure c ∧ (f.name = [] ∨ FirstDefines (before ++ between) ref f.name)) ∨
      ∃ name, f = ⟨"def", .binder name⟩

theorem Event.FirstDefines.prepend {ref : Nat} {name : Text} (h : FirstDefines between ref name)
    (hbefore : ∀ d ∈ Event.bindings before, d.value ≠ .function ref) :
    FirstDefines (before ++ between) ref name := by
  obtain ⟨first, d, rest, rfl, hvalue, hname, hfirst⟩ := h
  refine ⟨before ++ first, d, rest, by simp, hvalue, hname, fun e he => ?_⟩
  rcases List.mem_append.mp he with he | he
  · exact hbefore e (mem_bindings.mpr he)
  · exact hfirst e he

/-- Definitions bind only functions that are there. -/
theorem Machine.Course.unknown (h : M.Course P s es y) {ref : Nat}
    (hnone : y.functions[ref]? = none) : ∀ d ∈ Event.bindings es, d.value ≠ .function ref := by
  intro d hd hvalue
  have hlt := (h.bindings d hd).2 ref hvalue
  rw [Array.getElem?_eq_none_iff] at hnone
  omega

/-- **From any point to any later one** a course lets the module only grow. -/
theorem Machine.Stretch.later (h : M.Stretch s before y between z after x) :
    y.Later before between z where
  names := h.stretch.grown.names
  changed name hne := by
    rw [h.stretch.grown.found name] at hne ⊢
    cases hlast : Binding.last name (Event.bindings between) with
    | none => simp [hlast] at hne
    | some v =>
      obtain ⟨d, hd, rfl⟩ := Option.map_eq_some_iff.mp hlast
      have hmem := List.mem_reverse.mp (List.mem_of_find?_eq_some hd)
      have hname := List.find?_some hd
      exact ⟨d, mem_bindings.mp hmem, by simpa using hname, rfl⟩
  named _ _ hf hname := h.stretch.grown.named hf hname
  nameless ref f hf hname := by
    have hlater := h.stretch.grown.functions ref f hf
    rw [if_pos hname] at hlater
    by_cases hfirst : Binding.first ref (Event.bindings between) = []
    · left
      rw [hlater, hfirst, ← hname]
    · exact Or.inr ⟨_, hfirst, hlater,
        (Binding.first_defines hfirst).prepend (h.reached.nameless hf hname)⟩
  new ref f hnone hf := by
    rcases h.stretch.grown.new ref f hnone hf with ⟨c, rfl⟩ | hbinder
    · refine Or.inl ⟨c, rfl, ?_⟩
      by_cases hfirst : Binding.first ref (Event.bindings between) = []
      · exact Or.inl hfirst
      · exact Or.inr ((Binding.first_defines hfirst).prepend (h.reached.unknown hnone))
    · exact Or.inr hbinder

/-! ### Runs in which a module only grows -/

/-- A run with its events. Nothing but the definitions among them changes what a name stands for or
what a function is called, and from each point on to each later one the module only grows. -/
structure Machine.OnlyGrows (M : Machine σ) (s : Store σ) (es : List (Event σ)) (x : Store σ) :
    Prop where
  course : M.Course (Reach []) s es x
  /-- The run comes to the store of each of its moments. -/
  moments : ∀ before m after, es = before ++ .moment m :: after →
    M.Course (Reach []) s before m.store ∧
      M.Course (Reach (before ++ [.moment m])) m.store after x
  /-- Each definition is the call of the binder that a `def` or `defsyntax` form became at a moment
  before, and with it the evaluation of the form ends. It binds the name of that form, and touches
  nothing but that and the name of a function without one. -/
  definitions : ∀ before d after, es = before ++ .define d :: after →
    .moment d.moment ∈ before ∧ ∃ y z, M.Course (Reach []) s before y ∧ d.Made M y z ∧
      (∃ depth w, (M.recur depth).eval d.moment.scope d.moment.tree d.moment.store = .done w z) ∧
      y.Defines d.name d.value z ∧ M.Course (Reach (before ++ [.define d])) z after x
  /-- Each part of the run leads from a store to a store. -/
  parts : ∀ before between after, es = before ++ between ++ after →
    ∃ y z, M.Stretch s before y between z after x
  later : ∀ before y between z after, es = before ++ between ++ after →
    M.Stretch s before y between z after x → y.Later before between z

/-- In a run with a course the module only grows. -/
theorem Machine.Course.onlyGrows (h : M.Course (Reach []) s es x) : M.OnlyGrows s es x where
  course := h
  moments before m after hes := by
    obtain ⟨hbefore, hafter⟩ := (hes ▸ h).split_moment
    exact ⟨hbefore, hafter.reach⟩
  definitions before d after hes := by
    obtain ⟨y, z, hbefore, hd, hm, hafter⟩ := (hes ▸ h).split_define
    exact ⟨hm.resolve_left List.not_mem_nil, y, z, hbefore, hd, hd.evaluates, hd.defines,
      hafter.reach⟩
  parts before between after hes := by
    obtain ⟨z, hinit, hafter⟩ := (hes ▸ h).split
    obtain ⟨y, hbefore, hbetween⟩ := hinit.split
    exact ⟨y, z, hbefore, hbetween.reach, hafter.reach⟩
  later _ _ _ _ _ _ hstretch := hstretch.later

end LittleLisp
