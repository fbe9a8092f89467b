/-
# The module of a session only grows

A session starts in a fresh module, and its embedding program furnishes that with functions, forms
and values of its own. From then on programs are all that acts on the module. Whatever trees they
hold, the module only grows: nothing touches it but definitions, and these only add names, let a
name stand for something else or give a function without a name its first one. The built-in
functions keep their names, also the three that evaluation itself calls and that all modules share.

Key definitions: `Store.Genuine`, `Store.Intact`, `Session.Furnished`, `Session.Runs`,
`Session.execute`.
Key theorems: `Node.OfSource.among`, `Store.intact_withGlobals`, `Session.Runs.course`,
`Session.module_only_grows`.
-/
import LittleLisp.Proofs.Course.Growth
import LittleLisp.Proofs.Course.Machine
import LittleLisp.Proofs.Provenance.Session

namespace LittleLisp

variable {σ : Type} {M : Machine σ} {I : (Nat → Prop) → σ → Prop} {F : Nat → Prop}

/-! ### Trees of sources -/

/-- A tree that some reader makes of some source. -/
def Node.OfSource (n : Node) : Prop :=
  ∃ (r : Reader) (module source : Text), n ∈ Forest.build module (r.tokens source)

theorem Token.among_ofAtom (marker : Text) (p : Position) (word : Text) :
    (Token.ofAtom marker p word).value.Among F := by
  unfold Token.ofAtom
  dsimp only
  split
  · exact Value.among_atom _
  · split
    · exact Value.among_atom _
    · split
      · exact Value.among_atom _
      · split
        · exact Value.among_atom _
        · split_ifs
          · exact Value.among_atom _
          · exact Value.among_undefined _

theorem Reader.Spelled.among {r : Reader} {gs : List Glyph} {t : Token} (h : Spelled r gs t) :
    t.value.Among F := by
  cases h with
  | word p h => exact Token.among_ofAtom _ _ _
  | string p h => exact Value.among_atom _
  | _ => exact Value.among_absent

/-- Nothing in a source stands for a function yet. -/
theorem Node.OfSource.among {n : Node} (h : n.OfSource) : n.Among F := by
  obtain ⟨r, module, source, hn⟩ := h
  refine Forest.madeOf_build module (fun t ht => ?_) (fun f _ => ?_) n hn
  · have hspelled := r.spelled_tokens source t ht
    refine ⟨hspelled.among, fun _ htext => ?_⟩
    rw [htext] at hspelled
    exact hspelled.ne_nil rfl
  · exact ⟨Value.among_error f, nofun⟩

/-! ### Built-in functions -/

theorem Builtin.name_ne_nil (b : Builtin) : b.name ≠ [] := by
  cases b <;> decide

namespace Store

variable {s t : Store σ}

/-- Built-in functions have their own names, and those that all modules share are where they are in
all modules. -/
structure Genuine (s : Store σ) : Prop where
  named : ∀ (ref : Nat) (f : Function) (b : Builtin), s.functions[ref]? = some f →
    f.body = .builtin b → f.name = b.name
  identity : s.functions[identityRef]? = some ⟨Builtin.identity.name, .builtin .identity⟩
  get : s.functions[getRef]? = some ⟨Builtin.get.name, .builtin .get⟩
  sequence : s.functions[doRef]? = some ⟨Builtin.do.name, .builtin .do⟩

theorem plain_of_builtin {ref : Nat} {name : Text} {b : Builtin}
    (h : s.functions[ref]? = some ⟨name, .builtin b⟩) : s.Plain ref :=
  ⟨.builtin b, by rw [bodyOf, h]; rfl, nofun⟩

/-- Nobody has got hold of a binder, and built-in functions are what they should be. -/
structure Intact (M : Machine σ) (I : (Nat → Prop) → σ → Prop) (s : Store σ) : Prop where
  sealed : s.Sealed M I
  genuine : s.Genuine

/-- A module that only grows keeps its built-in functions. -/
theorem Genuine.grown (h : s.Genuine) {ds : List (Binding σ)} (hgrown : s.Grown ds t) :
    t.Genuine where
  named ref g b hg hbody := by
    cases hf : s.functions[ref]? with
    | some f =>
      obtain rfl := Option.some.inj (hg.symm.trans (hgrown.functions ref f hf))
      have hname : f.name = b.name := h.named ref f b hf hbody
      simp only [hname, b.name_ne_nil, if_false]
    | none => rcases hgrown.new ref g hf hg with ⟨c, rfl⟩ | ⟨name, rfl⟩ <;> cases hbody
  identity := hgrown.named h.identity (Builtin.name_ne_nil .identity)
  get := hgrown.named h.get (Builtin.name_ne_nil .get)
  sequence := hgrown.named h.sequence (Builtin.name_ne_nil .do)

theorem Genuine.addFunction (h : s.Genuine) {f : Function}
    (hf : ∀ b, f.body = .builtin b → f.name = b.name) : (s.addFunction f).2.Genuine := by
  refine ⟨fun ref g b hg hbody => ?_, functions_addFunction h.identity f,
    functions_addFunction h.get f, functions_addFunction h.sequence f⟩
  simp only [Store.addFunction, Array.getElem?_push] at hg
  split_ifs at hg
  · obtain rfl := Option.some.inj hg
    exact hf b hbody
  · exact h.named ref g b hg hbody

namespace Intact

theorem bind (h : s.Intact M I) (name : Text) {v : Value} (hv : v.Among s.Plain) :
    (s.bind name v).Intact M I :=
  ⟨h.sealed.bind name hv,
    ⟨h.genuine.named, h.genuine.identity, h.genuine.get, h.genuine.sequence⟩⟩

variable (hI : Host.Lasting I)

include hI

theorem addFunction (h : s.Intact M I) {f : Function} (hf : f.body.Among s.Plain)
    (hname : ∀ b, f.body = .builtin b → f.name = b.name) : (s.addFunction f).2.Intact M I :=
  ⟨h.sealed.addFunction hI hf, h.genuine.addFunction hname⟩

theorem addTransformer (h : s.Intact M I) {x : Transformer} (hx : x.expander.Among s.Plain) :
    (s.addTransformer x).2.Intact M I :=
  ⟨h.sealed.addTransformer hI hx,
    ⟨h.genuine.named, h.genuine.identity, h.genuine.get, h.genuine.sequence⟩⟩

theorem builtin (h : s.Intact M I) (b : Builtin) :
    (s.builtin b).2.Intact M I ∧ (s.builtin b).1.Among (s.builtin b).2.Plain := by
  have hnew : (s.addFunction ⟨b.name, .builtin b⟩).2.Intact M I :=
    h.addFunction hI trivial fun c hc => by rw [Body.builtin.inj hc]
  have hplain : (Value.function s.functions.size).Among
      (s.addFunction ⟨b.name, .builtin b⟩).2.Plain :=
    Value.among_function.mpr (s.plain_addFunction nofun)
  have hget : s.Plain getRef := plain_of_builtin h.genuine.get
  cases b with
  | identity => exact ⟨h, Value.among_function.mpr h.sealed.identity⟩
  | get => exact ⟨h, Value.among_function.mpr hget⟩
  | _ => exact ⟨hnew, hplain⟩

theorem special (h : s.Intact M I) (f : SpecialForm) :
    (s.special f).2.Intact M I ∧ (s.special f).1.Among (s.special f).2.Plain :=
  ⟨h.addTransformer hI (x := ⟨f.name, .special f⟩) trivial, Value.among_transformer _⟩

/-- What a name is bound to in a fresh module may be had in any module. -/
theorem global (h : s.Intact M I) {name : Text} {v : Value} (hv : s.global? name = some (v, t)) :
    t.Intact M I ∧ v.Among t.Plain := by
  unfold global? at hv
  split at hv
  · rename_i b _
    obtain ⟨rfl, rfl⟩ := Prod.mk.inj (Option.some.inj hv)
    exact h.builtin hI b
  · split at hv
    · rename_i f _
      obtain ⟨rfl, rfl⟩ := Prod.mk.inj (Option.some.inj hv)
      exact h.special hI f
    · split_ifs at hv
      obtain ⟨rfl, rfl⟩ := Prod.mk.inj (Option.some.inj hv)
      exact ⟨h, Value.among_atom _⟩

end Intact

variable (hI : Host.Lasting I)

include hI

theorem intact_empty (hget : M.getter = getRef) (module : Text) {state : σ}
    (hstate : I (fun _ => False) state) : (empty module state).Intact M I := by
  have hfunctions (ref : Nat) (f : Function) (hf : (empty module state).functions[ref]? = some f) :
      ∃ b : Builtin, f = ⟨b.name, .builtin b⟩ := by
    simp only [empty, Array.getElem?_map, Option.map_eq_some_iff] at hf
    obtain ⟨b, -, rfl⟩ := hf
    exact ⟨b, rfl⟩
  have hgenuine : (empty module state).Genuine := by
    refine ⟨fun ref f b hf hbody => ?_, by simp [empty, identityRef], by simp [empty, getRef],
      by simp [empty, doRef]⟩
    obtain ⟨c, rfl⟩ := hfunctions ref f hf
    rw [Body.builtin.inj hbody]
  refine ⟨⟨fun _ hb => absurd hb List.not_mem_nil, fun ref body hbody => ?_, fun ref x hx => ?_,
    plain_of_builtin hgenuine.identity, plain_of_builtin hgenuine.sequence,
    hget ▸ plain_of_builtin hgenuine.get, hI (fun _ => False.elim) hstate⟩, hgenuine⟩
  · obtain ⟨f, hf, rfl⟩ := Option.map_eq_some_iff.mp hbody
    obtain ⟨b, rfl⟩ := hfunctions ref f hf
    trivial
  · obtain ⟨hlt, rfl⟩ := Array.getElem?_eq_some_iff.mp hx
    obtain rfl : ref = 0 := Nat.lt_one_iff.mp hlt
    trivial

/-- A fresh module is intact. -/
theorem intact_withGlobals (hget : M.getter = getRef) (module : Text) {state : σ}
    (hstate : I (fun _ => False) state) : (withGlobals module state).Intact M I := by
  have hbuiltins := List.foldlRecOn Builtin.all Store.bindBuiltin
    (intact_empty hI hget module hstate) fun s hs b _ =>
      (Intact.builtin hI hs b).1.bind b.name (Intact.builtin hI hs b).2
  exact List.foldlRecOn SpecialForm.all Store.bindSpecial
    (hbuiltins.bind "pi" (Value.among_atom _)) fun s hs f _ =>
      (Intact.special hI hs f).1.bind f.name (Intact.special hI hs f).2

end Store

/-! ### Sessions -/

namespace Session

variable {c : Config} {H : Host σ} {state : σ} {s s' : Session σ} {ms : List (Moment σ)}
  {x y : Store σ}

/-- What is run in a session: a source, all of it or up to the first fault. -/
inductive Program where
  | eval (source : Text)
  | load (source : Text)

/-- Runs a program, unless it nests deeper than the session allows. -/
def execute (s : Session σ) : Program → Option (Session σ)
  | .eval source => (s.eval source).map Prod.snd
  | .load source => (s.load source).map Prod.snd

/-- The sessions that a start with some configuration leads to when programs are run and the
embedding program furnishes the module: with values, among whose functions is no binder, with
functions and forms of its own, with what a fresh module binds, and with another function for
keywords in head position. Arguments of methods may be checked by any validator. -/
inductive Furnished (I : (Nat → Prop) → σ → Prop) (c : Config) (H : Host σ) (state : σ) :
    Session σ → Prop where
  | start (validator : Option Validator) (depth : Nat) : Furnished I c H state
      ⟨⟨c.module, c.marker⟩, ⟨c.sigil, Store.getRef, validator, H⟩, .withGlobals c.module state,
        depth⟩
  | execute {s s' : Session σ} (h : Furnished I c H state s) (p : Program)
      (hp : s.execute p = some s') : Furnished I c H state s'
  | bind {s : Session σ} (h : Furnished I c H state s) (name : Text) {v : Value}
      (hv : v.Among s.store.Plain) : Furnished I c H state (s.bind name v)
  | bindNative {s : Session σ} (h : Furnished I c H state s) (name : Text) :
      Furnished I c H state (s.bindNative name)
  | bindTransformer {s : Session σ} (h : Furnished I c H state s) (name : Text) {x : Expander}
      (hx : x.Among s.store.Plain) : Furnished I c H state (s.bindTransformer name x)
  | bindGlobal {s : Session σ} (h : Furnished I c H state s) (name : Text) {global : Text}
      {v : Value} {t : Store σ} (hv : s.store.global? global = some (v, t)) :
      Furnished I c H state { s with store := t.bind name v }
  | getter {s : Session σ} (h : Furnished I c H state s) {ref : Nat} (href : s.store.Plain ref) :
      Furnished I c H state { s with machine := { s.machine with getter := ref } }

/-- The runs of a session: trees of sources are evaluated one after the other, however each
evaluation ends. They lead through the moments at which these begin. -/
inductive Runs (s : Session σ) : List (Moment σ) → Store σ → Prop where
  | start : Runs s [] s.store
  | step {ms : List (Moment σ)} {x : Store σ} {tree : Node} (h : Runs s ms x)
      (htree : tree.OfSource) :
      Runs s (ms ++ [⟨[], tree, x⟩]) ((s.machine.recur s.depth).eval [] tree x).store

/-! ### Programs are runs -/

theorem ofSource_of_parse (s : Session σ) (source : Text) : ∀ n ∈ s.parse source, n.OfSource :=
  fun _ hn => ⟨s.reader, s.store.module, source, hn⟩

theorem Runs.run (h : s.Runs ms x) {tree : Node} (htree : tree.OfSource) {v : Value}
    (hrun : s.machine.run s.depth tree x = some (v, y)) : ∃ ms', s.Runs ms' y :=
  ⟨_, Machine.store_of_run hrun ▸ h.step htree⟩

theorem Runs.runAll : ∀ (forest : Forest) {ms : List (Moment σ)} {x : Store σ} {vs : List Value},
    s.Runs ms x → (∀ n ∈ forest, n.OfSource) →
    s.machine.runAll s.depth forest x = some (vs, y) → ∃ ms', s.Runs ms' y
  | [], ms, x, vs, h, _, hrun => by
    cases hrun
    exact ⟨ms, h⟩
  | tree :: trees, ms, x, vs, h, hforest, hrun => by
    rw [List.forall_mem_cons] at hforest
    obtain ⟨v, z, ws, -, hfirst, hrest⟩ := Machine.runAll_cons_inv hrun
    obtain ⟨ms', h'⟩ := h.run hforest.1 hfirst
    exact Runs.runAll trees h' hforest.2 hrest

theorem Runs.load : ∀ (forest : Forest) {ms : List (Moment σ)} {x : Store σ} {r : Option Fault},
    s.Runs ms x → (∀ n ∈ forest, n.OfSource) →
    s.machine.load s.depth forest x = some (r, y) → ∃ ms', s.Runs ms' y
  | [], ms, x, r, h, _, hrun => by
    cases hrun
    exact ⟨ms, h⟩
  | tree :: trees, ms, x, r, h, hforest, hrun => by
    rw [List.forall_mem_cons] at hforest
    obtain ⟨v, z, hfirst, hend⟩ := Machine.load_cons_inv hrun
    obtain ⟨ms', h'⟩ := h.run hforest.1 hfirst
    rcases hend with rfl | hrest
    · exact ⟨ms', h'⟩
    · exact Runs.load trees h' hforest.2 hrest

/-- A program that is run in between is part of the run, and changes nothing but the store. -/
theorem Runs.execute (h : s.Runs ms x) {p : Program}
    (hp : ({ s with store := x } : Session σ).execute p = some s') :
    s' = { s with store := s'.store } ∧ ∃ ms', s.Runs ms' s'.store := by
  let t : Session σ := { s with store := x }
  cases p with
  | eval source =>
    obtain ⟨⟨vs, u⟩, heval, rfl⟩ := Option.map_eq_some_iff.mp hp
    obtain ⟨store, hrun, rfl⟩ := evalForest_eq_some.mp heval
    exact ⟨rfl, h.runAll (t.parse source) (t.ofSource_of_parse source) hrun⟩
  | load source =>
    obtain ⟨⟨r, u⟩, hload, rfl⟩ := Option.map_eq_some_iff.mp hp
    obtain ⟨store, hrun, rfl⟩ := load_eq_some.mp hload
    exact ⟨rfl, h.load (t.parse source) (t.ofSource_of_parse source) hrun⟩

/-- Programs that are run one after the other are a run. -/
theorem Runs.programs : ∀ (ps : List Program) {ms : List (Moment σ)} {x : Store σ}, s.Runs ms x →
    ps.foldlM Session.execute ({ s with store := x } : Session σ) = some s' →
    ∃ ms', s.Runs ms' s'.store
  | [], ms, x, h, hps => by
    cases hps
    exact ⟨ms, h⟩
  | p :: ps, ms, x, h, hps => by
    simp only [List.foldlM_cons, Option.bind_eq_bind, Option.bind_eq_some_iff] at hps
    obtain ⟨t, hp, hrest⟩ := hps
    obtain ⟨ht, ms', h'⟩ := h.execute hp
    exact Runs.programs ps h' (ht ▸ hrest)

/-! ### The module of a session -/

open Event (Reach)

/-- **A run follows a course**, and its moments are those that the evaluations of its trees pass. -/
theorem Runs.course (hH : s.machine.host.Discreet I) (hs : s.store.Sealed s.machine I)
    (h : s.Runs ms x) : x.Sealed s.machine I ∧ ∃ es,
      s.machine.Course (Reach []) s.store es x ∧
      ∀ m, Reach es m ↔ ∃ m₀ ∈ ms, s.machine.Passes s.depth m₀ m := by
  induction h with
  | start => exact ⟨hs, [], .start, by simp [Reach]⟩
  | @step ms x tree _ htree ih =>
    obtain ⟨hx, es, hcourse, hmoments⟩ := ih
    have hscope : Bindings.Among x.Plain ([] : Scope) := fun _ hb => absurd hb List.not_mem_nil
    obtain ⟨⟨fs, hnext, hpassed⟩, hy⟩ :=
      Machine.course_of_eval (P := Reach []) hH hx hscope htree.among s.depth
    refine ⟨hy, es ++ fs, hcourse.trans (hnext.mono fun _ => Or.inl), fun m => ?_⟩
    have hevents : Reach (es ++ fs) m ↔ Reach es m ∨ .moment m ∈ fs := List.mem_append
    rw [hevents, hmoments, hpassed]
    simp only [List.mem_append, List.mem_singleton, or_and_right, exists_or, exists_eq_left]

/-- However a session has been furnished, its embedding program is the one that it started with, and
its store is intact. -/
theorem Furnished.intact (hH : H.Discreet I) (hstate : I (fun _ => False) state)
    (h : s.Furnished I c H state) : s.machine.host = H ∧ s.store.Intact s.machine I := by
  have hI := hH.lasting
  induction h with
  | start => exact ⟨rfl, Store.intact_withGlobals hI rfl _ hstate⟩
  | @execute s s' _ p hp ih =>
    obtain ⟨rfl, hs⟩ := ih
    obtain ⟨hsame, ms, hrun⟩ := (Runs.start (s := s)).execute hp
    obtain ⟨hsealed, es, hcourse, -⟩ := hrun.course hH hs.sealed
    rw [hsame]
    exact ⟨rfl, hsealed, hs.genuine.grown hcourse.grown⟩
  | bind _ name hv ih => exact ⟨ih.1, ih.2.bind name hv⟩
  | @bindNative s _ name ih =>
    have hnew : (s.store.addFunction ⟨name, .native name⟩).2.Intact s.machine I :=
      ih.2.addFunction hI trivial nofun
    exact ⟨ih.1, hnew.bind name (Value.among_function.mpr (s.store.plain_addFunction nofun))⟩
  | bindTransformer _ name hx ih =>
    exact ⟨ih.1, (ih.2.addTransformer hI hx).bind name (Value.among_transformer _)⟩
  | bindGlobal _ name hv ih =>
    obtain ⟨hintact, hvalue⟩ := ih.2.global hI hv
    exact ⟨ih.1, hintact.bind name hvalue⟩
  | @getter s _ ref href ih =>
    obtain ⟨hhost, hs, hgenuine⟩ := ih
    have hsealed : s.store.Sealed { s.machine with getter := ref } I :=
      ⟨hs.bindings, hs.bodies, hs.transformers, hs.identity, hs.sequence, href, hs.host⟩
    exact ⟨hhost, hsealed, hgenuine⟩

/-- **The module of a session only grows.** However a session has been furnished by an embedding
program that makes up no functions, and so cannot touch the module from within a run, each of its
runs has events: the moments that the evaluations of its trees pass, and the definitions that they
make. Between any two points of the run names stay bound, only definitions in between change what a
name stands for, and a function is renamed only once, from no name to that of the first definition
that binds it. At each point the built-in functions have their own names, the shared ones among
them. Any programs that are run one after the other are such a run. -/
theorem module_only_grows (hH : H.Discreet I) (hstate : I (fun _ => False) state)
    (hs : s.Furnished I c H state) :
    (∀ ms x, s.Runs ms x → ∃ es, s.machine.OnlyGrows s.store es x ∧
      (∀ m, Reach es m ↔ ∃ m₀ ∈ ms, s.machine.Passes s.depth m₀ m) ∧
      ∀ before after y, es = before ++ after → s.machine.Course (Reach []) s.store before y →
        y.Genuine) ∧
    ∀ (programs : List Program) (s' : Session σ), programs.foldlM Session.execute s = some s' →
      ∃ ms, s.Runs ms s'.store := by
  obtain ⟨rfl, hsealed, hgenuine⟩ := hs.intact hH hstate
  refine ⟨fun ms x hrun => ?_, fun programs s' hprograms => Runs.start.programs programs hprograms⟩
  obtain ⟨-, es, hcourse, hmoments⟩ := hrun.course hH hsealed
  exact ⟨es, hcourse.onlyGrows, hmoments, fun before after y _ hy => hgenuine.grown hy.grown⟩

/-- An embedding program whose functions call the function that they are given. -/
def calling : Host Unit :=
  { Host.none with
    native := fun _ args state =>
      match args with
      | [.function ref] => .call state ref [] fun state v => .done state v
      | _ => .done state .absent }

theorem discreet_calling : calling.Discreet fun _ _ => True where
  lasting _ _ _ _ _ := trivial
  native {F name args state} hargs _ := by
    simp only [calling]
    split
    · rename_i ref
      have href : F ref := Value.among_function.mp (hargs _ List.mem_cons_self)
      exact ⟨trivial, href, nofun, fun G state v _ _ hv => ⟨trivial, hv⟩⟩
    · exact ⟨trivial, Value.among_absent⟩
  method {F o name found run L args state} hfound _ _ := by
    have hlookup := hfound.found
    rcases o with _ | h | ⟨_ | h, exports⟩ <;> cases hlookup

/-- A function of the embedding program calls a closure in which a function is defined as `f`, and
then that is defined as `g` too: `g` stands for it by a definition, and it is called `f`, after the
first one. -/
theorem module_only_grows_while_calling :
    let s := ({ Session.start .default calling () with depth := 12 }).bindNative "call"
    let p := Program.eval "(call (fn () (def f (fn (x) x)))) (def g f)"
    ∃ (s' : Session Unit) (ms : List (Moment Unit)) (es : List (Event Unit)) (ref : Nat)
      (f : Function) (d : Binding Unit),
      [p].foldlM Session.execute s = some s' ∧ s.Runs ms s'.store ∧
      s.machine.OnlyGrows s.store es s'.store ∧ .define d ∈ es ∧ d.name = ("g" : Text) ∧
      d.value = .function ref ∧ s'.store.functions[ref]? = some f ∧ f.name = ("f" : Text) ∧
      Event.FirstDefines es ref "f" := by
  intro s p
  have hs : s.Furnished (fun _ _ => True) .default calling () :=
    (Furnished.start (some .rules) 12).bindNative "call"
  have hshape : ([p].foldlM Session.execute s).map (fun s' =>
      ((s'.store.find? "g").map (Value.isFunction 30), s'.store.functions[30]?.map Function.name)) =
      some (some true, some ("f" : Text)) := by decide +kernel
  have hfresh : ((s.store.find? "g").isNone && s.store.functions[30]?.isNone) = true := by
    decide +kernel
  obtain ⟨s', hexecute, hstore⟩ := Option.map_eq_some_iff.mp hshape
  obtain ⟨hg, hf⟩ := Prod.mk.inj hstore
  obtain ⟨v, hg, hv⟩ := Option.map_eq_some_iff.mp hg
  obtain rfl := Value.isFunction_iff.mp hv
  obtain ⟨f, hf, hname⟩ := Option.map_eq_some_iff.mp hf
  simp only [Bool.and_eq_true, Option.isNone_iff_eq_none] at hfresh
  -- what the theorem says of the run, from its start to its end
  obtain ⟨hruns, hprograms⟩ := module_only_grows discreet_calling trivial hs
  obtain ⟨ms, hrun⟩ := hprograms [p] s' hexecute
  obtain ⟨es, hgrows, -, -⟩ := hruns ms s'.store hrun
  have hlater : s.store.Later [] es s'.store :=
    hgrows.later [] s.store es s'.store [] (by simp) ⟨.start, hgrows.course, .start⟩
  obtain ⟨d, hd, hdname, hdvalue⟩ := hlater.changed "g" (by simp [hg, hfresh.1])
  have hnew := hlater.new 30 f hfresh.2 hf
  have hfirst : Event.FirstDefines es 30 "f" := by
    rcases hnew with ⟨c, -, hempty | hfirst⟩ | ⟨name, rfl⟩
    · rw [hname] at hempty
      cases hempty
    · rwa [hname] at hfirst
    · have hne : ("def" : Text) ≠ "f" := by decide
      exact absurd hname hne
  exact ⟨s', ms, es, 30, f, d, hexecute, hrun, hgrows, hd, hdname,
    Option.some.inj (hdvalue.symm.trans hg), hf, hname, hfirst⟩

end Session

end LittleLisp
