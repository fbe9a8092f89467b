/-
# Actions that follow a course

Every evaluation has a course: the moments that it passes and the definitions that it makes, in the
order in which they happen. Which moments it passes is told by breaking it off: at a moment of its
course any alarm can interrupt it, and at any other moment none can. So each action is looked at in
all the ways in which it can be broken off at once.

That nothing but definitions touches the module needs that no binder is ever called but in the form
that a definition has become, and so that nothing gets hold of one. The two are shown together. Here
they are shown of calls, for any way to come back to evaluation that follows a course itself.

Key definitions: `Machine.breakIf`, `Action.Follows`, `Recur.Follows`.
Key theorems: `Action.Follows.bind`, `Machine.follows_arguments`, `Machine.follows_call`,
`Machine.follows_applyLeaf`.
-/
import LittleLisp.Proofs.Course.Binders

namespace LittleLisp

variable {σ α β : Type}

/-- Evaluation that is broken off at a moment by an alarm, if at all. -/
noncomputable def Machine.breakIf (M : Machine σ) (depth : Nat) :
    Option (Moment σ × Alarm) → Recur σ
  | none => M.recur depth
  | some (m, alarm) => M.breakAt m alarm depth

/-- A value no function of which is a binder. -/
def Store.Knows (s : Store σ) (v : Value) : Prop := v.Among s.Plain

/-! ### Actions that follow a course -/

namespace Action

/-- An action, in all the ways to break it off, from a store on. Not broken off, it has a course and
leaves a sealed store, and a result satisfies `Q`. It can be broken off exactly at the moments of
the course: otherwise it does what it does when it is not broken off. -/
structure Follows (M : Machine σ) (I : (Nat → Prop) → σ → Prop) (P : Moment σ → Prop)
    (Q : Store σ → α → Prop) (s : Store σ) (x : Option (Moment σ × Alarm) → Action σ α) : Prop where
  course : ∃ es, M.Course P s es (x none s).store ∧
    (∀ m, .moment m ∈ es → ∀ alarm, x (some (m, alarm)) s = .raised alarm m.store) ∧
    ∀ m, .moment m ∉ es → ∀ alarm, x (some (m, alarm)) s = x none s
  sealed : (x none s).store.Sealed M I
  result : ∀ a t, x none s = .done a t → Q t a

variable {M : Machine σ} {I : (Nat → Prop) → σ → Prop} {P : Moment σ → Prop}
  {Q : Store σ → α → Prop} {R : Store σ → β → Prop} {s : Store σ}

/-- What never looks at a moment and leaves the module alone. -/
theorem follows_aside {x : Action σ α} (haside : s.Aside (x s).store)
    (hsealed : (x s).store.Sealed M I) (hQ : ∀ a t, x s = .done a t → Q t a) :
    Follows M I P Q s fun _ => x :=
  ⟨⟨[], .of_aside haside, fun _ hm => absurd hm List.not_mem_nil, fun _ _ _ => rfl⟩, hsealed, hQ⟩

theorem follows_done {a : α} (hs : s.Sealed M I) (ha : Q s a) :
    Follows M I P Q s fun _ s => .done a s :=
  follows_aside (.refl s) hs fun b t h => by
    obtain ⟨rfl, rfl⟩ := Outcome.done.inj h
    exact ha

theorem follows_pure {a : α} (hs : s.Sealed M I) (ha : Q s a) :
    Follows M I P Q s fun _ => (pure a : Action σ α) := follows_done hs ha

theorem follows_raise (hs : s.Sealed M I) (alarm : Alarm) :
    Follows M I P Q s fun _ => (raise alarm : Action σ α) :=
  follows_aside (.refl s) hs nofun

theorem follows_exhausted (hs : s.Sealed M I) :
    Follows M I P Q s fun _ => (exhausted : Action σ α) :=
  follows_aside (.refl s) hs nofun

theorem follows_ofExcept (hs : s.Sealed M I) {x : Except Text α} (hx : ∀ a, x = .ok a → Q s a) :
    Follows M I P Q s fun _ => (ofExcept x : Action σ α) := by
  cases x with
  | ok a => exact follows_pure hs (hx a rfl)
  | error message => exact follows_raise hs _

theorem follows_stamped (hs : s.Sealed M I) {v : Value} (hv : s.Knows v) :
    Follows M I P Store.Knows s fun _ => (stamped v : Action σ Value) :=
  follows_aside .withStamps (hs.withStamps _) fun a t h => by
    obtain ⟨rfl, rfl⟩ := Outcome.done.inj h
    exact Value.Every.stamped hv _

theorem follows_settled (hs : s.Sealed M I) {v : Value} (hv : s.Knows v) :
    Follows M I P Store.Knows s fun _ => (settled v : Action σ Value) :=
  follows_aside .withStamps (hs.withStamps _) fun a t h => by
    obtain ⟨rfl, rfl⟩ := Outcome.done.inj h
    exact Value.Every.settled hv _

variable {x : Option (Moment σ × Alarm) → Action σ α}

/-- Only what the actions do in the store counts. -/
theorem Follows.congr {y : Option (Moment σ × Alarm) → Action σ α} (h : Follows M I P Q s x)
    (hy : ∀ stop, y stop s = x stop s) : Follows M I P Q s y := by
  obtain ⟨hcourse, hsealed, hresult⟩ := h
  simp only [← hy] at hcourse hsealed hresult
  exact ⟨hcourse, hsealed, hresult⟩

/-- What is cut short wherever another action is has the course of that. -/
theorem Follows.cut (h : Follows M I P Q s x) {y : Option (Moment σ × Alarm) → Action σ β}
    {o : Outcome σ β} (hy : y none s = o) (hstore : o.store = (x none s).store)
    (hdone : ∀ b t, o ≠ .done b t)
    (hraised : ∀ stop alarm t, x stop s = .raised alarm t → y stop s = .raised alarm t)
    (hsame : ∀ stop, x stop s = x none s → y stop s = o) : Follows M I P R s y := by
  obtain ⟨es, hcourse, hpassed, hother⟩ := h.course
  refine ⟨⟨es, ?_, fun m hm alarm => ?_, fun m hm alarm => ?_⟩, ?_, fun b t hb => ?_⟩
  · rwa [hy, hstore]
  · exact hraised _ _ _ (hpassed m hm alarm)
  · exact (hsame _ (hother m hm alarm)).trans hy.symm
  · rw [hy, hstore]
    exact h.sealed
  · exact absurd (hy.symm.trans hb) (hdone b t)

/-- One action after the other has one course after the other. -/
theorem Follows.bind {f : Option (Moment σ × Alarm) → α → Action σ β} (h : Follows M I P Q s x)
    (hf : ∀ a t, x none s = .done a t → s.Grows t → t.Sealed M I → Q t a →
      Follows M I P R t fun stop => f stop a) :
    Follows M I P R s fun stop => x stop >>= f stop := by
  cases hx : x none s with
  | done a t =>
    obtain ⟨es, hcourse, hpassed, hother⟩ := h.course
    have hsealed := h.sealed
    rw [hx] at hcourse hother hsealed
    have hrest := hf a t hx hcourse.grows hsealed (h.result a t hx)
    obtain ⟨fs, hcourse', hpassed', hother'⟩ := hrest.course
    have hbind : (x none >>= f none) s = f none a t := bind_done hx
    refine ⟨⟨es ++ fs, ?_, fun m hm alarm => ?_, fun m hm alarm => ?_⟩, ?_, fun b u hb => ?_⟩
    · rw [hbind]
      exact hcourse.trans (hcourse'.mono fun _ => Or.inl)
    · by_cases hmes : .moment m ∈ es
      · exact bind_raised (hpassed m hmes alarm)
      · have hmfs := (List.mem_append.mp hm).resolve_left hmes
        exact (bind_done (hother m hmes alarm)).trans (hpassed' m hmfs alarm)
    · rw [List.mem_append, not_or] at hm
      calc (x (some (m, alarm)) >>= f (some (m, alarm))) s
          = f (some (m, alarm)) a t := bind_done (hother m hm.1 alarm)
        _ = f none a t := hother' m hm.2 alarm
        _ = (x none >>= f none) s := hbind.symm
    · rw [hbind]
      exact hrest.sealed
    · exact hrest.result b u (hbind.symm.trans hb)
  | raised alarm t =>
    exact h.cut (bind_raised hx) (by rw [hx]; rfl) nofun (fun _ _ _ => bind_raised)
      fun _ hsame => bind_raised (hsame.trans hx)
  | exhausted t =>
    exact h.cut (bind_exhausted hx) (by rw [hx]; rfl) nofun (fun _ _ _ => bind_raised)
      fun _ hsame => bind_exhausted (hsame.trans hx)

/-- Looking at the store changes nothing. -/
theorem Follows.look {f : Option (Moment σ × Alarm) → Store σ → Action σ β}
    (h : Follows M I P R s fun stop => f stop s) :
    Follows M I P R s fun stop => store >>= f stop :=
  ⟨h.course, h.sealed, h.result⟩

/-- Neither does finding out how values are printed. -/
theorem Follows.legend {f : Option (Moment σ × Alarm) → Legend → Action σ β}
    (h : Follows M I P R s fun stop => f stop (s.legend M.host)) :
    Follows M I P R s fun stop => Action.legend M.host >>= f stop :=
  ⟨h.course, h.sealed, h.result⟩

/-- A new state of the embedding program leaves the rest of the store alone. -/
theorem follows_host {state : σ} {f : Option (Moment σ × Alarm) → Unit → Action σ β}
    (h : Follows M I P R { s with host := state } fun stop => f stop ()) :
    Follows M I P R s fun stop => modify (fun s => { s with host := state }) >>= f stop := by
  obtain ⟨es, hcourse, hpassed, hother⟩ := h.course
  refine ⟨⟨es, ?_, hpassed, hother⟩, h.sealed, h.result⟩
  have haside : s.Aside { s with host := state } := .withHost
  have hall := (Machine.Course.of_aside (P := P) haside).trans (hcourse.mono fun _ => Or.inl)
  exact hall

end Action

/-- What comes back to evaluation follows a course. The call that a definition has become does so if
its form is among the moments at which something has begun. -/
structure Recur.Follows (M : Machine σ) (I : (Nat → Prop) → σ → Prop) (P : Moment σ → Prop)
    (r : Option (Moment σ × Alarm) → Recur σ) : Prop where
  eval : ∀ {s : Store σ} {scope : Scope} {n : Node}, s.Sealed M I → Bindings.Among s.Plain scope →
    n.Among s.Plain →
    Action.Follows M I P Store.Knows s fun stop => (r stop).eval scope n
  define : ∀ {s : Store σ} {m : Moment σ} {name : Text} {binder : Nat} {p : Position} {tree : Node},
    P m → M.Introduces m name binder p tree s → name ≠ [] → s.Sealed M I →
    Bindings.Among s.Plain m.scope → tree.Among s.Plain →
    Action.Follows M I P Store.Knows s fun stop =>
      (r stop).eval m.scope (.form [.ofValue (.function binder) p, tree])
  call : ∀ {s : Store σ} {ref : Nat} {args : List Value}, s.Sealed M I → s.Plain ref →
    (∀ v ∈ args, s.Knows v) →
    Action.Follows M I P Store.Knows s fun stop => (r stop).call ref args

namespace Machine

open LittleLisp.Action

variable {M : Machine σ} {I : (Nat → Prop) → σ → Prop} {P : Moment σ → Prop}
  {self : Option (Moment σ × Alarm) → Recur σ} {s : Store σ} {scope : Scope}

/-- What succeeds satisfies `Q`. -/
def IfOk (Q : Store σ → α → Prop) (s : Store σ) (x : Checked α) : Prop := ∀ a, x = .ok a → Q s a

theorem ifOk_error (Q : Store σ → α → Prop) (f : Fault) : IfOk Q s (.error f) := nofun

theorem ifOk_ok {Q : Store σ → α → Prop} {a : α} : IfOk Q s (.ok a) ↔ Q s a :=
  ⟨fun h => h a rfl, fun h _ hb => Except.ok.inj hb ▸ h⟩

/-! ### Names and arguments -/

theorem knows_resolve (hs : s.Sealed M I) (hscope : Bindings.Among s.Plain scope) {t : Token}
    (ht : t.Among s.Plain) : IfOk Store.Knows s (resolve scope t s) := by
  intro v hv
  rcases resolve_ok_iff.mp hv with hv | ⟨-, hv | ⟨-, -, hv⟩⟩
  · exact hscope.find? hv
  · exact hs.bindings.find? hv
  · exact hv ▸ ht.value

section Arguments

variable (h : Recur.Follows M I P self)

include h

theorem follows_argument (hs : s.Sealed M I) (hscope : Bindings.Among s.Plain scope) {n : Node}
    (hn : n.Among s.Plain) :
    Follows M I P (IfOk Store.Knows) s fun stop => argument (self stop) scope n := by
  have htree (hleaf : ∀ t, n ≠ .leaf t) :
      Follows M I P (IfOk Store.Knows) s fun stop => argument (self stop) scope n := by
    simp only [argument_tree _ scope hleaf]
    refine (h.eval hs hscope hn).bind fun v t _ _ ht hv => ?_
    split
    · exact follows_pure ht (ifOk_error _ _)
    · exact follows_pure ht (ifOk_ok.mpr hv)
  cases n with
  | absent => exact htree (by simp)
  | form ns => exact htree (by simp)
  | leaf t =>
    have ht : t.Among s.Plain := Node.madeOf_leaf.mp hn
    by_cases hid : t.type = .identifier
    · simp only [argument_identifier _ scope hid]
      exact follows_aside (.refl s) hs fun x u hx => by
        obtain ⟨rfl, rfl⟩ := Outcome.done.inj hx
        exact knows_resolve hs hscope ht
    · by_cases herr : t.type = .error
      · by_cases hf : ∃ f, t.value = .error f
        · obtain ⟨f, hf⟩ := hf
          simp only [argument_error _ scope herr hf]
          exact follows_pure hs (ifOk_error _ _)
        · simp only [argument_invalid _ scope herr fun f hv => hf ⟨f, hv⟩]
          exact follows_pure hs (ifOk_error _ _)
      · simp only [argument_literal _ scope hid herr]
        exact follows_pure hs (ifOk_ok.mpr ht.value.orNil)

theorem follows_arguments : ∀ (ns : List Node) {s : Store σ}, s.Sealed M I →
    Bindings.Among s.Plain scope → (∀ n ∈ ns, n.Among s.Plain) →
    Follows M I P (IfOk fun t vs => ∀ v ∈ vs, t.Knows v) s
      fun stop => arguments (self stop) scope ns
  | [], s, hs, _, _ => follows_pure hs (ifOk_ok.mpr (by simp))
  | n :: ns, s, hs, hscope, hns => by
    rw [List.forall_mem_cons] at hns
    refine (follows_argument h hs hscope hns.1).bind fun x t _ hst ht hx => ?_
    cases x with
    | error f => exact follows_pure ht (ifOk_error _ _)
    | ok v =>
      have hrest : ∀ n ∈ ns, n.Among t.Plain := fun n hn => Node.among_mono hst.plain (hns.2 n hn)
      refine (follows_arguments ns ht (hscope.mono hst.plain) hrest).bind fun y u _ htu hu hy => ?_
      cases y with
      | error f => exact follows_pure hu (ifOk_error _ _)
      | ok vs =>
        have hv : u.Knows v := (ifOk_ok.mp hx).mono htu.plain
        exact follows_pure hu (ifOk_ok.mpr (List.forall_mem_cons.mpr ⟨hv, ifOk_ok.mp hy⟩))

theorem follows_body : ∀ (ns : List Node) (last : Value) {s : Store σ}, s.Sealed M I →
    Bindings.Among s.Plain scope → (∀ n ∈ ns, n.Among s.Plain) → s.Knows last →
    Follows M I P Store.Knows s fun stop => body (self stop) scope last ns
  | [], _, s, hs, _, _, hlast => follows_pure hs hlast
  | n :: ns, _, s, hs, hscope, hns, _ => by
    rw [List.forall_mem_cons] at hns
    refine (h.eval hs hscope hns.1).bind fun v t _ hst ht hv => ?_
    split
    · exact follows_pure ht (Value.among_error _)
    · exact follows_body ns v ht (hscope.mono hst.plain)
        (fun n hn => Node.among_mono hst.plain (hns.2 n hn)) hv

end Arguments

/-! ### Calls -/

section Calls

variable (h : Recur.Follows M I P self) (hH : M.host.Discreet I)

include h

theorem follows_callClosure (hs : s.Sealed M I) {c : Closure}
    (hc : (Body.closure c).Among s.Plain) {args : List Value} (hargs : ∀ v ∈ args, s.Knows v)
    (ref : Nat) :
    Follows M I P Store.Knows s fun stop => callClosure M (self stop) ref c args := by
  have hscope : Bindings.Among s.Plain (c.scope.insertAll c.params args) :=
    hc.2.insertAll c.params args hargs
  simp only [callClosure_eq]
  split_ifs
  · exact Follows.legend (follows_pure hs (Value.among_fail _ _))
  · cases hrest : c.rest with
    | none => exact follows_body h c.body .nil hs hscope hc.1 (Value.among_atom _)
    | some name =>
      have hmore : s.Knows (.list 0 (args.drop c.params.length)) :=
        Value.among_list fun v hv => hargs v (List.mem_of_mem_drop hv)
      refine (follows_stamped hs hmore).bind fun more t _ hst ht hmore => ?_
      exact follows_body h c.body .nil ht ((hscope.mono hst.plain).insert name hmore)
        (fun n hn => Node.among_mono hst.plain (hc.1 n hn)) (Value.among_atom _)

theorem follows_script : ∀ (script : Script σ Value) {s : Store σ}, s.Sealed M I →
    Script.Discreet I s.Plain script →
    Follows M I P Store.Knows s fun stop => Machine.script M (self stop) script
  | .done state v, s, hs, ⟨hstate, hv⟩ =>
    follows_host (follows_settled (hs.withHost hstate) hv)
  | .raise state alarm, s, hs, hstate => follows_host (follows_raise (hs.withHost hstate) alarm)
  | .call state f args next, s, hs, ⟨hstate, hf, hargs, hnext⟩ => by
    unfold Machine.script
    refine follows_host ((h.call (hs.withHost hstate) hf hargs).bind fun v t _ hst ht hv => ?_)
    exact Follows.look (f := fun stop u => Machine.script M (self stop) (next u.host v))
      (follows_script _ ht (hnext _ _ v hst.plain ht.host hv))
  | .print state v next, s, hs, ⟨hstate, hnext⟩ => by
    unfold Machine.script
    refine follows_host (Follows.legend ?_)
    cases v.text (Store.legend { s with host := state } M.host) with
    | ok t => exact follows_script (next t) (hs.withHost hstate) (hnext t)
    | error message => exact follows_raise (hs.withHost hstate) _
  | .nameOf state f next, s, hs, ⟨hstate, hnext⟩ => by
    unfold Machine.script
    exact follows_host (Follows.legend (follows_script _ (hs.withHost hstate) (hnext _)))

include hH

theorem follows_call (hs : s.Sealed M I) {ref : Nat} (href : s.Plain ref) {args : List Value}
    (hargs : ∀ v ∈ args, s.Knows v) :
    Follows M I P Store.Knows s fun stop => call M (self stop) ref args := by
  obtain ⟨b, hb, hplain⟩ := href
  obtain ⟨f, hf, rfl⟩ := Option.map_eq_some_iff.mp hb
  have hamong := hs.bodies ref f.body hb
  refine Follows.look ?_
  simp only [hf]
  cases hbody : f.body with
  | builtin b =>
    have happly : ∀ v, b.apply (s.legend M.host) args = .ok v → s.Knows v :=
      fun v hv => Value.among_apply hargs hv
    refine (follows_ofExcept (Q := Store.Knows) hs happly).bind fun v t _ _ ht hv => ?_
    split_ifs
    · exact follows_stamped ht hv
    · exact follows_pure ht hv.orNil
  | closure c =>
    rw [hbody] at hamong
    exact (follows_callClosure h hs hamong hargs ref).bind
      fun v t _ _ ht hv => follows_pure ht hv.orNil
  | binder name => exact absurd hbody (hplain name)
  | native name =>
    exact (follows_script h _ hs (hH.native hargs hs.host)).bind
      fun v t _ _ ht hv => follows_pure ht hv.orNil

theorem follows_getKeyword (hs : s.Sealed M I) {keyword : Value} (hk : s.Knows keyword)
    {args : List Value} (hargs : ∀ v ∈ args, s.Knows v) (p : Position) :
    Follows M I P Store.Knows s fun stop => getKeyword M (self stop) keyword args p := by
  have hlookup (args : List Value) (hargs : ∀ v ∈ args, s.Knows v) :
      Follows M I P Store.Knows s fun stop => (do
        let v ← call M (self stop) M.getter args
        return v.located p) :=
    (follows_call h hH hs hs.getter hargs).bind fun v t _ _ ht hv => follows_pure ht (hv.located p)
  simp only [getKeyword_eq]
  split
  · rename_i coll
    exact hlookup _ (by simpa using ⟨hargs coll (by simp), hk⟩)
  · rename_i coll default
    exact hlookup _ (by simpa using ⟨hargs coll (by simp), hk, hargs default (by simp)⟩)
  · exact Follows.legend (follows_pure hs (Value.among_error _))

omit h hH in
/-- The report of a fault that mentions a value. -/
theorem follows_mention_value (hs : s.Sealed M I) (v : Value) (f : Text → Fault) :
    Follows M I P Store.Knows s fun _ => (do
      let L ← Action.legend M.host
      let t ← Action.ofExcept (v.described L)
      return Value.error (f t)) :=
  Follows.legend ((follows_ofExcept (Q := fun _ _ => True) hs fun _ _ => trivial).bind
    fun _ _ _ _ ht _ => follows_pure ht (Value.among_error _))

theorem follows_apply (hs : s.Sealed M I) {f : Value} (hf : s.Knows f) {args : List Value}
    (hargs : ∀ v ∈ args, s.Knows v) (p : Position) :
    Follows M I P Store.Knows s fun stop => apply M (self stop) f args p := by
  unfold apply
  split
  · exact follows_pure hs (Value.among_error _)
  · exact follows_getKeyword h hH hs (Value.among_atom _) hargs p
  · exact (follows_call h hH hs (Value.among_function.mp hf) hargs).bind
      fun v t _ _ ht hv => follows_pure ht (hv.located p)
  · exact follows_mention_value hs _ _

theorem follows_method (hs : s.Sealed M I) (name : Text) (o : Object) {args : List Value}
    (hargs : ∀ v ∈ args, s.Knows v) :
    Follows M I P (fun t r => ∀ v, r = some v → t.Knows v) s
      fun stop => method M (self stop) name o args := by
  by_cases havail : ∃ found run, M.host.Offers o name found run
  · obtain ⟨found, run, hfound⟩ := havail
    -- nothing is decided by where the call is broken off, up to the script
    have hmethod (stop : Option (Moment σ × Alarm)) :=
      method_available M (self stop) hfound args s
    cases hcheck : M.refusal (s.legend M.host) found.rules args with
    | error message =>
      simp only [hcheck] at hmethod
      exact Follows.congr (follows_raise hs (.native message)) hmethod
    | ok refusal =>
      cases refusal with
      | some f =>
        simp only [hcheck] at hmethod
        refine Follows.congr (follows_done hs fun v hv => ?_) hmethod
        exact Option.some.inj hv ▸ Value.among_error f
      | none =>
        simp only [hcheck] at hmethod
        have hamong := hH.method (L := s.legend M.host) hfound hargs hs.host
        have hscript := follows_script h _ hs hamong
        refine Follows.congr (hscript.bind fun v t _ _ ht hv => ?_) hmethod
        exact follows_pure ht fun w hw => Option.some.inj hw ▸ hv.orNil
  · have hnone : ∀ found run, ¬ M.host.Offers o name found run :=
      fun found run hfound => havail ⟨found, run, hfound⟩
    simp only [method_unavailable M _ hnone]
    exact follows_pure hs nofun

theorem follows_methodCall (hs : s.Sealed M I) (t : Token) {args : List Value}
    (hargs : ∀ v ∈ args, s.Knows v) (p : Position) :
    Follows M I P Store.Knows s fun stop => methodCall M (self stop) t args p := by
  simp only [methodCall_eq]
  split
  · exact follows_pure hs (Value.among_error _)
  · rw [List.forall_mem_cons] at hargs
    refine (follows_method h hH hs _ _ hargs.2).bind fun r u _ _ hu hr => ?_
    cases r with
    | some v => exact follows_pure hu ((hr v rfl).located p)
    | none => exact Follows.legend (follows_pure hu (Value.among_error _))
  · exact follows_mention_value hs _ _

theorem follows_applyLeaf (hs : s.Sealed M I) {t : Token} (ht : t.Among s.Plain) {f : Value}
    (hf : s.Knows f) {args : List Value} (hargs : ∀ v ∈ args, s.Knows v) (p : Position) :
    Follows M I P Store.Knows s fun stop => applyLeaf M (self stop) t f args p := by
  unfold applyLeaf
  split_ifs
  · exact follows_getKeyword h hH hs ht.value hargs p
  · exact follows_methodCall h hH hs t hargs p
  · exact follows_apply h hH hs hf hargs p

end Calls

end Machine

end LittleLisp
