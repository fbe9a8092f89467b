/-
# Method calls and what permits them

Whatever a program does, a method body is entered only if an object that the program could
come by offers the method, the validator has nothing against the arguments, and, for a
method of a host type, the number of arguments is right and every one of them could be
converted. The record of an evaluation says which bodies were entered, and an invariant of
the evaluation says that each entry was permitted.

A method call whose arguments have values ends in one of three ways. A body is entered; or
the call is refused with a fault and leaves everything as it was; or describing the
receiver, the validator or the conversion of an argument fails, and then an alarm interrupts
the evaluation, which also leaves everything as it was. The third happens around objects
with nothing behind them and missing values, which have no text, and where a validator
fails by itself.

Key definitions: `Machine.Enters`, `Machine.Granted`, `Machine.Refuses`, `Machine.Breaks`,
`Policy.guarded`.
Key theorems: `Policy.guarded_admits`, `Machine.granted_of_run`,
`Machine.methodCall_cases`, `Machine.capability_safety`.
-/
import LittleLisp.Host.Sample
import LittleLisp.Proofs.Capability.Confinement
import LittleLisp.Proofs.Capability.Recording

namespace LittleLisp

variable {σ : Type}

namespace Machine

variable (M : Machine σ)

/-! ### Permitted calls -/

/-- A call of the method `name` of an object, in a store that evaluation has come to, enters a body:
the look-up finds the method exported and with a body, and the validator has nothing against the
arguments. A method of a host type must also accept their number and be able to convert each. -/
inductive Enters (s : Store σ) (name : Text) : Object → List Value → Invocation σ → Prop where
  | direct {h : Handle} {args : List Value} {found : Host.Found σ}
      {run : Legend → List Value → σ → Script σ Value}
      (offers : M.host.Offers (.direct h) name found run)
      (valid : M.refusal (s.legend M.host) found.rules args = .ok none) :
      Enters s name (.direct h) args (.direct h name args s.host)
  | reflected {h : Handle} {exports : List Text} {args : List Value} {found : Host.Found σ}
      {run : Legend → List Value → σ → Script σ Value} {m : ReflectedMethod σ}
      {xs : List HostValue} (offers : M.host.Offers (.reflected (some h) exports) name found run)
      (valid : M.refusal (s.legend M.host) found.rules args = .ok none)
      (method : M.host.reflected h.type name = some m)
      (arity : m.signature.arityFault? name args.length = none)
      (conversion : m.signature.convert M.host.types (s.legend M.host) name 0 args = .ok xs) :
      Enters s name (.reflected (some h) exports) args (.reflected h name xs s.host)

/-- A call of a method body that an object of `C` permits. -/
def Granted (C : Object → Prop) (i : Invocation σ) : Prop :=
  ∃ s name o args, C o ∧ M.Enters s name o args i

variable {M}

/-- What the record of an offered and validated call gets is permitted. -/
theorem enters_of_entry {s : Store σ} {name : Text} {o : Object} {args : List Value}
    {found : Host.Found σ} {run : Legend → List Value → σ → Script σ Value}
    (offers : M.host.Offers o name found run)
    (valid : M.refusal (s.legend M.host) found.rules args = .ok none) {i : Invocation σ}
    (h : M.host.entry o name (s.legend M.host) args s.host = some i) :
    M.Enters s name o args i := by
  cases o with
  | hollow => simp [Host.entry] at h
  | direct k =>
    simp only [Host.entry, Option.some.injEq] at h
    exact h ▸ .direct offers valid
  | reflected k exports =>
    cases k with
    | none => simp [Host.entry] at h
    | some k =>
      cases hm : M.host.reflected k.type name with
      | none => simp [Host.entry, hm] at h
      | some m =>
        simp only [Host.entry, hm] at h
        split at h
        · rename_i xs harity hxs
          exact Option.some.inj h ▸ .reflected offers valid hm harity hxs
        · simp at h

end Machine

/-! ### The record is accounted for -/

namespace Policy

variable (M : Machine σ) (C : Object → Prop) (I : σ → Prop) (start : List (Invocation σ))

/-- A record that has grown from `start` by permitted calls. -/
def Accounted (calls : List (Invocation σ)) : Prop :=
  ∃ more, calls = start ++ more ∧ ∀ i ∈ more, M.Granted C i

/-- Objects of `C` may be held, and the record grows by permitted calls only. -/
def guarded : Policy (Recorded σ) where
  holds _ v := ∀ o, v = .object o → C o
  reports _ := True
  raises _ := True
  foreign := True
  states state := I state.1 ∧ Accounted M C start state.2

variable {M C I start} {e : Extent}

theorem Accounted.refl (calls : List (Invocation σ)) : Accounted M C calls calls :=
  ⟨[], (List.append_nil calls).symm, nofun⟩

theorem Accounted.append {calls more : List (Invocation σ)} (h : Accounted M C start calls)
    (hmore : ∀ i ∈ more, M.Granted C i) : Accounted M C start (calls ++ more) := by
  obtain ⟨old, rfl, hold⟩ := h
  refine ⟨old ++ more, List.append_assoc _ _ _, fun i hi => ?_⟩
  exact (List.mem_append.mp hi).elim (hold i) (hmore i)

theorem held_guarded {v : Value} : (guarded M C I start).Held e v ↔ v.Within C :=
  Value.within_iff_every.symm

theorem within_of_result {v : Value} (h : (guarded M C I start).Result e v) : v.Within C := by
  rcases h with h | ⟨f, rfl, _⟩
  · exact held_guarded.mp h
  · exact Host.Confines.within_error f

/-- A script that stays within `C` does so with the record. -/
theorem scriptHeld_recorded : ∀ {script : Script σ Value} {calls : List (Invocation σ)}
    {e : Extent}, script.Within C I (Value.Within C) → Accounted M C start calls →
      (guarded M C I start).ScriptHeld (script.recorded calls) e
  | .done _ _, _, _, ⟨hI, hv⟩, hcalls => ⟨⟨hI, hcalls⟩, Or.inl (held_guarded.mpr hv)⟩
  | .raise _ _, _, _, hI, hcalls => ⟨⟨hI, hcalls⟩, trivial⟩
  | .call _ _ _ _, _, _, ⟨hI, hargs, hnext⟩, hcalls =>
    ⟨⟨hI, hcalls⟩, nofun, fun v hv => held_guarded.mpr (hargs v hv),
      fun state v _ _ hs hv =>
        scriptHeld_recorded (hnext state.1 v hs.1 (within_of_result hv)) hs.2⟩
  | .print _ _ _, _, _, ⟨hI, hnext⟩, hcalls =>
    ⟨⟨hI, hcalls⟩, fun _ _ _ => trivial, fun t => scriptHeld_recorded (hnext t) hcalls⟩
  | .nameOf _ _ _, _, _, ⟨hI, hnext⟩, hcalls =>
    ⟨⟨hI, hcalls⟩, fun t => scriptHeld_recorded (hnext t) hcalls⟩

/-- A confined embedding program keeps the policy: a method that runs adds itself to the record, and
its call is permitted by the object it was called on. -/
theorem guarded_admits (hH : M.host.Confines C I) : (guarded M C I start).Admits M.recorded where
  mono _ h := h
  atom := nofun
  function _ := nofun
  transformer _ := nofun
  held _ := trivial
  located _ _ := trivial
  internal _ := trivial
  eager _ _ := nofun
  printing _ _ := trivial
  missing _ _ := trivial
  missingForm _ _ := trivial
  native _ hargs hs :=
    scriptHeld_recorded (hH.native (fun v hv => held_guarded.mp (hargs v hv)) hs.1) hs.2
  refusal _ _ := trivial
  failure _ _ := trivial
  method {e o name found run args s} ho hrecorded hvalid hargs hs := by
    obtain ⟨found, run, hoffers, hrules, rfl⟩ := Host.offers_of_recorded hrecorded
    have hC : C o := ho o rfl
    rw [refusal_recorded, hrules] at hvalid
    have hwithin := hH.offers hC hoffers (fun v hv => held_guarded.mp (hargs v hv)) hs.1
      (s.legend M.recorded.host)
    refine scriptHeld_recorded hwithin (hs.2.append fun i hi => ?_)
    refine ⟨s.forget, name, o, args, hC, Machine.enters_of_entry hoffers hvalid ?_⟩
    rw [← legend_recorded]
    exact Option.mem_toList.mp hi

theorem holds_guarded {d : Extent} (v : Value) (h : (confined C I).holds d v) :
    (guarded M C I start).holds e v := h

/-- A store that may be held may be held with a record that is accounted for. -/
theorem storeHeld_guarded {s : Store (Recorded σ)} (h : (confined C I).StoreHeld M s.forget)
    (hcalls : Accounted M C start s.host.2) : (guarded M C I start).StoreHeld M.recorded s where
  bindings := h.bindings.imp holds_guarded
  functions f hf := (h.functions f hf).imp holds_guarded fun _ => trivial
  transformers x hx := (h.transformers x hx).imp holds_guarded (fun _ => trivial) fun _ => id
  core := ⟨nofun, nofun, nofun, nofun⟩
  host := ⟨h.host, hcalls⟩

end Policy

namespace Outcome

variable {σ α : Type}

/-- Whether a computation has come to an answer. -/
def answers : Outcome σ (Checked α) → Bool
  | .done (.ok _) _ => true
  | _ => false

/-- The message of the failure that interrupted a computation. -/
def interruption? : Outcome σ α → Option Text
  | .raised (.native m) _ => some m
  | _ => none

theorem eq_done_of_answers {o : Outcome σ (Checked α)} (h : o.answers = true) :
    ∃ a, o = .done (.ok a) o.store := by
  unfold answers at h
  split at h
  · exact ⟨_, rfl⟩
  · cases h

theorem eq_raised_of_interruption {o : Outcome σ α} {m : Text} (h : o.interruption? = some m) :
    o = .raised (.native m) o.store := by
  unfold interruption? at h
  split at h
  · rw [Option.some.inj h]
    rfl
  · cases h

end Outcome

namespace Machine

open Policy

variable {M : Machine σ} {C : Object → Prop} {I : σ → Prop} {depth : Nat}

/-! ### Whole runs -/

/-- However the evaluation of a tree of a forest ends, after the trees before it have been evaluated,
the record of all calls so far is accounted for. -/
theorem granted_of_run {forest pre post : Forest} {tree : Node} {s : Store σ}
    (h : M.Encloses forest s C I) (hforest : forest = pre ++ tree :: post) {vs : List Value}
    {s' : Store (Recorded σ)} (hrun : M.recorded.runAll depth pre s.recorded = some (vs, s')) :
    ∀ i ∈ ((M.recorded.recur depth).eval [] tree s').store.host.2, M.Granted C i := by
  have hP : (guarded M C I []).Admits M.recorded := guarded_admits h.host
  have hstart : (guarded M C I []).StoreHeld M.recorded s.recorded :=
    storeHeld_guarded h.store (.refl [])
  have htrees : ∀ n ∈ forest, (guarded M C I []).NodeResult s.recorded.extent n :=
    fun n hn => Or.inl ((h.forest n hn).imp holds_guarded)
  rw [hforest, List.forall_mem_append, List.forall_mem_cons] at htrees
  obtain ⟨hpre, htree, -⟩ := htrees
  obtain ⟨hgrown, hs', -⟩ := runAll_held hP (fun _ _ _ => trivial) pre hstart hpre hrun
  obtain ⟨-, hstore, -⟩ := keeps_tree hP depth hs' (htree.mono hP hgrown)
  obtain ⟨more, hmore, hgranted⟩ := hstore.host.2
  rw [hmore]
  exact hgranted

/-! ### Single method calls -/

section Calls

variable (M) (s : Store σ) (t : Token) (p : Position)

/-- The name of the method that a leaf calls. -/
def methodName : Text := t.text.drop M.effectiveSigil.length

/-- The fault that a method call at `p` is refused with, given the values of its arguments. -/
inductive Refuses : List Value → Fault → Prop where
  | noReceiver : Refuses [] (.placed .noReceiver p [t.text, " needs a receiver"])
  | noObject {v : Value} {args : List Value} {text : Text} (receiver : ∀ o, v ≠ .object o)
      (described : v.described (s.legend M.host) = .ok text) :
      Refuses (v :: args)
        (.placed .notExported p [M.methodName t, " is not an exported method of ", text])
  | notExported {o : Object} {args : List Value}
      (missing : ∀ found run, ¬ M.host.Offers o (M.methodName t) found run) :
      Refuses (.object o :: args)
        (.placed .notExported p [M.methodName t, " is not an exported method of ",
          Value.shown ((Value.object o).text (s.legend M.host))])
  | invalid {o : Object} {args : List Value} {found : Host.Found σ}
      {run : Legend → List Value → σ → Script σ Value} {f : Fault}
      (offers : M.host.Offers o (M.methodName t) found run)
      (refusal : M.refusal (s.legend M.host) found.rules args = .ok (some f)) :
      Refuses (.object o :: args) (f.located p)
  | arity {h : Handle} {exports : List Text} {args : List Value} {found : Host.Found σ}
      {run : Legend → List Value → σ → Script σ Value} {m : ReflectedMethod σ} {f : Fault}
      (offers : M.host.Offers (.reflected (some h) exports) (M.methodName t) found run)
      (valid : M.refusal (s.legend M.host) found.rules args = .ok none)
      (method : M.host.reflected h.type (M.methodName t) = some m)
      (fault : m.signature.arityFault? (M.methodName t) args.length = some f) :
      Refuses (.object (.reflected (some h) exports) :: args) (f.located p)
  | conversion {h : Handle} {exports : List Text} {args : List Value} {found : Host.Found σ}
      {run : Legend → List Value → σ → Script σ Value} {m : ReflectedMethod σ} {f : Fault}
      (offers : M.host.Offers (.reflected (some h) exports) (M.methodName t) found run)
      (valid : M.refusal (s.legend M.host) found.rules args = .ok none)
      (method : M.host.reflected h.type (M.methodName t) = some m)
      (arity : m.signature.arityFault? (M.methodName t) args.length = none)
      (fault : m.signature.convert M.host.types (s.legend M.host) (M.methodName t) 0 args =
        .error (.fault f)) :
      Refuses (.object (.reflected (some h) exports) :: args) (f.located p)

/-- The message of the alarm that interrupts a method call, where the refusal itself fails: the
receiver is no object and cannot be described, or the validator or the conversion of an argument
fails. -/
inductive Breaks : List Value → Text → Prop where
  | noObject {v : Value} {args : List Value} {message : Text} (receiver : ∀ o, v ≠ .object o)
      (described : v.described (s.legend M.host) = .error message) : Breaks (v :: args) message
  | validator {o : Object} {args : List Value} {found : Host.Found σ}
      {run : Legend → List Value → σ → Script σ Value} {message : Text}
      (offers : M.host.Offers o (M.methodName t) found run)
      (refusal : M.refusal (s.legend M.host) found.rules args = .error message) :
      Breaks (.object o :: args) message
  | conversion {h : Handle} {exports : List Text} {args : List Value} {found : Host.Found σ}
      {run : Legend → List Value → σ → Script σ Value} {m : ReflectedMethod σ} {message : Text}
      (offers : M.host.Offers (.reflected (some h) exports) (M.methodName t) found run)
      (valid : M.refusal (s.legend M.host) found.rules args = .ok none)
      (method : M.host.reflected h.type (M.methodName t) = some m)
      (arity : m.signature.arityFault? (M.methodName t) args.length = none)
      (failure : m.signature.convert M.host.types (s.legend M.host) (M.methodName t) 0 args =
        .error (.native message)) :
      Breaks (.object (.reflected (some h) exports) :: args) message

end Calls

variable {self : Recur σ}

/-- A receiver that is no object has to be described. -/
theorem methodCall_noObject (M : Machine σ) (self : Recur σ) (t : Token) {v : Value}
    (h : ∀ o, v ≠ .object o) (args : List Value) (p : Position) (s : Store σ) :
    methodCall M self t (v :: args) p s =
      match v.described (s.legend M.host) with
      | .ok text => .done (.error (.placed .notExported p
          [M.methodName t, " is not an exported method of ", text])) s
      | .error message => .raised (.native message) s := by
  have hcall : methodCall M self t (v :: args) p = (do
      let L ← Action.legend M.host
      let text ← Action.ofExcept (v.described L)
      return .error (.placed .notExported p
        [M.methodName t, " is not an exported method of ", text])) := by
    cases v with
    | object o => exact absurd rfl (h o)
    | _ => rfl
  rw [hcall]
  simp only [bind, Action.bind, Action.legend]
  cases v.described (s.legend M.host) <;> rfl

section Available

variable {s : Store σ} {t : Token} {o : Object} {found : Host.Found σ}
  {run : Legend → List Value → σ → Script σ Value} {args : List Value}

/-- A method call does what the method does, and reports that there is none. -/
theorem methodCall_object (M : Machine σ) (self : Recur σ) (t : Token) (o : Object)
    (args : List Value) (p : Position) (s : Store σ) :
    methodCall M self t (.object o :: args) p s =
      match method M self (M.methodName t) o args s with
      | .done (some v) s => .done (v.located p) s
      | .done none s => .done (.error (.placed .notExported p
          [M.methodName t, " is not an exported method of ",
            Value.shown ((Value.object o).text (s.legend M.host))])) s
      | .raised alarm s => .raised alarm s
      | .exhausted s => .exhausted s := by
  change Action.bind (method M self (M.methodName t) o args) _ s = _
  unfold Action.bind
  cases method M self (M.methodName t) o args s with
  | done r s => cases r <;> rfl
  | raised alarm s => rfl
  | exhausted s => rfl

theorem methodCall_unavailable
    (missing : ∀ found run, ¬ M.host.Offers o (M.methodName t) found run) (p : Position) :
    methodCall M self t (.object o :: args) p s =
      .done (.error (.placed .notExported p [M.methodName t, " is not an exported method of ",
        Value.shown ((Value.object o).text (s.legend M.host))])) s := by
  rw [methodCall_object, method_unavailable M self missing]
  rfl

variable (offers : M.host.Offers o (M.methodName t) found run)

include offers

theorem methodCall_failing {message : Text}
    (failure : M.refusal (s.legend M.host) found.rules args = .error message) (p : Position) :
    methodCall M self t (.object o :: args) p s = .raised (.native message) s := by
  rw [methodCall_object, method_available M self offers, failure]

theorem methodCall_invalid {f : Fault}
    (refusal : M.refusal (s.legend M.host) found.rules args = .ok (some f)) (p : Position) :
    methodCall M self t (.object o :: args) p s = .done (.error (f.located p)) s := by
  rw [methodCall_object, method_available M self offers, refusal]
  rfl

/-- A method that is offered and whose arguments are valid runs. -/
theorem methodCall_available
    (valid : M.refusal (s.legend M.host) found.rules args = .ok none) (p : Position) :
    methodCall M self t (.object o :: args) p s =
      (do
        let v ← script M self (run (s.legend M.host) args s.host)
        return v.orNil.located p) s := by
  rw [methodCall_object, method_available M self offers, valid]
  simp only [bind, Action.bind]
  cases script M self (run (s.legend M.host) args s.host) s <;> rfl

end Available

/-- A script starts by putting the state of the embedding program in place. -/
theorem script_withHost (x : Script σ Value) (s : Store σ) (state : σ) :
    M.script self x { s with host := state } = M.script self x s := by
  cases x <;> (unfold script; rfl)

/-- A result that is computed from another one leaves the same store. -/
theorem store_bind_pure {α β : Type} (x : Action σ α) (f : α → β) (s : Store σ) :
    ((do
      let a ← x
      return f a : Action σ β) s).store = (x s).store := by
  change (Action.bind x (fun a => Action.pure (f a)) s).store = (x s).store
  unfold Action.bind
  cases x s <;> rfl

/-- Running a script adds to the record that it starts with, and never takes from it. -/
theorem record_of_script (M : Machine σ) (depth : Nat) (x : Script σ Value)
    (calls : List (Invocation σ)) (s : Store (Recorded σ)) :
    ∃ more, (M.recorded.script (M.recorded.recur depth) (x.recorded calls) s).store.host.2 =
      calls ++ more := by
  -- Nothing is to be confined, so the family of sets to be intersected is empty.
  have hH := confines_meet (F := fun _ _ => False) (H := M.host) nofun
  have hwithin := script_meet (F := fun _ _ => False) (R := Value.Within)
    (fun _ => within_meet) (x := x) nofun
  have hstore := storeHeld_guarded (M := M) (s := { s with host := (s.host.1, calls) })
    (storeHeld_meet (F := fun _ _ => False) nofun) (.refl calls)
  obtain ⟨-, hafter, -⟩ := keeps_script (recurHeld_recur (guarded_admits hH) depth) _ hstore
    (scriptHeld_recorded hwithin (.refl calls))
  obtain ⟨more, hmore, -⟩ := hafter.host.2
  rw [script_withHost] at hmore
  exact ⟨more, hmore⟩

/-- Where a body is entered, the record says so. -/
theorem record_of_enters {s : Store (Recorded σ)} {t : Token} {o : Object} {found : Host.Found σ}
    {run : Legend → List Value → σ → Script σ Value} {args : List Value}
    (offers : M.host.Offers o (M.methodName t) found run)
    (valid : M.refusal (s.forget.legend M.host) found.rules args = .ok none) {i : Invocation σ}
    (hentry : M.host.entry o (M.methodName t) (s.forget.legend M.host) args s.host.1 = some i)
    (depth : Nat) (p : Position) :
    ∃ more, (M.recorded.methodCall (M.recorded.recur depth) t (.object o :: args) p s).store.host.2 =
      s.host.2 ++ i :: more := by
  obtain ⟨more, hmore⟩ := record_of_script M depth (run (s.forget.legend M.host) args s.host.1)
    (s.host.2 ++ [i]) s
  refine ⟨more, ?_⟩
  rw [methodCall_available (Host.offers_recorded offers) ((refusal_recorded M s _ _).trans valid),
    store_bind_pure, legend_recorded, hentry]
  simpa using hmore

/-- A method whose body is not entered is one of a host type that does not fit its arguments. -/
theorem refuses_of_no_entry {s : Store (Recorded σ)} {t : Token} {o : Object}
    {found : Host.Found σ} {run : Legend → List Value → σ → Script σ Value} {args : List Value}
    (offers : M.host.Offers o (M.methodName t) found run)
    (valid : M.refusal (s.forget.legend M.host) found.rules args = .ok none)
    (hentry : M.host.entry o (M.methodName t) (s.forget.legend M.host) args s.host.1 = none)
    (self' : Recur (Recorded σ)) (p : Position) :
    (∃ f, M.Refuses s.forget t p (.object o :: args) f ∧
      M.recorded.methodCall self' t (.object o :: args) p s = .done (.error f) s) ∨
    ∃ message, M.Breaks s.forget t (.object o :: args) message ∧
      M.recorded.methodCall self' t (.object o :: args) p s = .raised (.native message) s := by
  have hcall : M.recorded.methodCall self' t (.object o :: args) p s = _ :=
    methodCall_available (Host.offers_recorded offers) ((refusal_recorded M s _ _).trans valid) p
  rw [legend_recorded, hentry, Option.toList_none, List.append_nil] at hcall
  have hfound := offers.found
  have hbody := offers.body
  cases o with
  | hollow => simp [Host.lookup] at hfound
  | direct h => simp [Host.entry] at hentry
  | reflected h exports =>
    cases h with
    | none => simp [Host.lookup] at hfound
    | some h =>
      simp only [Host.lookup, Option.map_eq_some_iff] at hfound
      obtain ⟨m, hm, rfl⟩ := hfound
      cases hbody
      cases harity : m.signature.arityFault? (M.methodName t) args.length with
      | some f =>
        refine Or.inl ⟨f.located p, .arity offers valid hm harity, ?_⟩
        rw [hcall, Host.callReflected, harity]
        rfl
      | none =>
        cases hxs : m.signature.convert M.host.types (s.forget.legend M.host) (M.methodName t) 0
            args with
        | ok xs => simp [Host.entry, hm, harity, hxs] at hentry
        | error a =>
          cases a with
          | fault f =>
            refine Or.inl ⟨f.located p, .conversion offers valid hm harity hxs, ?_⟩
            rw [hcall, Host.callReflected, harity, hxs]
            rfl
          | native message =>
            refine Or.inr ⟨message, .conversion offers valid hm harity hxs, ?_⟩
            rw [hcall, Host.callReflected, harity, hxs]
            rfl

/-- A method call enters a body, is refused, or is interrupted; and only in the first case it leaves
anything but the store it started from. -/
theorem methodCall_cases (M : Machine σ) (depth : Nat) (t : Token) (vs : List Value) (p : Position)
    (s : Store (Recorded σ)) :
    (∃ o args i more, vs = .object o :: args ∧ M.Enters s.forget (M.methodName t) o args i ∧
      (M.recorded.methodCall (M.recorded.recur depth) t vs p s).store.host.2 =
        s.host.2 ++ i :: more) ∨
    (∃ f, M.Refuses s.forget t p vs f ∧
      M.recorded.methodCall (M.recorded.recur depth) t vs p s = .done (.error f) s) ∨
    ∃ message, M.Breaks s.forget t vs message ∧
      M.recorded.methodCall (M.recorded.recur depth) t vs p s = .raised (.native message) s := by
  cases vs with
  | nil => exact Or.inr (Or.inl ⟨_, .noReceiver, rfl⟩)
  | cons v args =>
    by_cases hobject : ∃ o, v = .object o
    · obtain ⟨o, rfl⟩ := hobject
      by_cases havail : ∃ found run, M.host.Offers o (M.methodName t) found run
      · obtain ⟨found, run, offers⟩ := havail
        cases hrefusal : M.refusal (s.forget.legend M.host) found.rules args with
        | error message =>
          refine Or.inr (Or.inr ⟨message, .validator offers hrefusal, ?_⟩)
          exact methodCall_failing (Host.offers_recorded offers)
            ((refusal_recorded M s _ _).trans hrefusal) p
        | ok r =>
          cases r with
          | some f =>
            refine Or.inr (Or.inl ⟨f.located p, .invalid offers hrefusal, ?_⟩)
            exact methodCall_invalid (Host.offers_recorded offers)
              ((refusal_recorded M s _ _).trans hrefusal) p
          | none =>
            cases hentry : M.host.entry o (M.methodName t) (s.forget.legend M.host) args s.host.1 with
            | none => exact Or.inr (refuses_of_no_entry offers hrefusal hentry _ p)
            | some i =>
              obtain ⟨more, hmore⟩ := record_of_enters offers hrefusal hentry depth p
              exact Or.inl ⟨o, args, i, more, rfl, enters_of_entry offers hrefusal hentry, hmore⟩
      · refine Or.inr (Or.inl ⟨_, .notExported fun found run h => havail ⟨found, run, h⟩, ?_⟩)
        rw [← legend_recorded]
        refine methodCall_unavailable (fun found run h => ?_) p
        obtain ⟨found, run, h, -⟩ := Host.offers_of_recorded h
        exact havail ⟨found, run, h⟩
    · have hobject : ∀ o, v ≠ .object o := fun o h => hobject ⟨o, h⟩
      have hcall := methodCall_noObject M.recorded (M.recorded.recur depth) t hobject args p s
      rw [legend_recorded] at hcall
      cases hdescribed : v.described (s.forget.legend M.host) with
      | ok text =>
        rw [hdescribed] at hcall
        exact Or.inr (Or.inl ⟨_, .noObject hobject hdescribed, hcall⟩)
      | error message =>
        rw [hdescribed] at hcall
        exact Or.inr (Or.inr ⟨message, .noObject hobject hdescribed, hcall⟩)

/-- A form whose head names a method calls it once the arguments have values. -/
theorem eval_method {scope : Scope} {t : Token} (ht : M.isMethodName t = true)
    {operands : List Node} {vs : List Value} {s s₁ : Store σ}
    (hargs : arguments self scope operands s = .done (.ok vs) s₁) :
    M.eval self scope (.form (.leaf t :: operands)) s =
      methodCall M self t vs (Node.form (.leaf t :: operands)).position s₁ := by
  have hid : t.type = .identifier := by
    simp only [isMethodName, Bool.and_eq_true, beq_iff_eq] at ht
    exact ht.1
  have hhead : M.headValue scope t s = .ok .absent := by simp [headValue, ht]
  change M.form self scope (.leaf t) operands s = _
  rw [form_plain M self hhead nofun]
  simp only [bind, Action.bind, hargs, applyLeaf, hid, ht]
  rfl

/-! ### Capability safety -/

/-- The embedding program is safe from what programs do with its objects.

The record of method bodies changes nothing about an evaluation. In whatever way the evaluation of
a tree of a forest ends, every body that was entered up to then was permitted by an obtainable
object. A method call whose arguments have values either enters a body permitted by its receiver,
or leaves the store its arguments left: then it has the fault of its refusal as its value, unless
that refusal itself fails. And objects that come back from reflected methods export nothing, unless
they answer look-ups themselves or were values of the language already. -/
theorem capability_safety (M : Machine σ) (depth : Nat) :
    (∀ (scope : Scope) (n : Node) (s : Store (Recorded σ)),
      ((M.recorded.recur depth).eval scope n s).forget = (M.recur depth).eval scope n s.forget) ∧
    (∀ (pre post : Forest) (tree : Node) (s : Store σ) (vs : List Value) (s' : Store (Recorded σ)),
      M.recorded.runAll depth pre s.recorded = some (vs, s') →
      M.runAll depth pre s = some (vs, s'.forget) ∧
      ∀ i ∈ ((M.recorded.recur depth).eval [] tree s').store.host.2,
        M.Granted (M.Obtainable (pre ++ tree :: post) s) i) ∧
    (∀ (scope : Scope) (t : Token) (operands : List Node) (s s₁ : Store (Recorded σ))
      (vs : List Value) (outcome : Outcome (Recorded σ) Value), M.isMethodName t = true →
      arguments (M.recorded.recur depth) scope operands s = .done (.ok vs) s₁ →
      outcome = (M.recorded.recur (depth + 1)).eval scope (.form (.leaf t :: operands)) s →
      (∃ o args i more, vs = .object o :: args ∧ M.Enters s₁.forget (M.methodName t) o args i ∧
        outcome.store.host.2 = s₁.host.2 ++ i :: more) ∨
      (∃ f, M.Refuses s₁.forget t (Node.form (.leaf t :: operands)).position vs f ∧
        outcome = .done (.error f) s₁) ∨
      ∃ message, M.Breaks s₁.forget t vs message ∧ outcome = .raised (.native message) s₁) ∧
    ∀ (signature : Signature) (xs : List HostValue) (o : Object),
      (signature.result M.host.types xs).Has (.object o) →
      (∃ x ∈ xs, ∃ v, x.Has (.value v) ∧ v.Has (.object o)) ∨
      (∃ k, o = .direct k ∧ M.host.types.isDirect k = true) ∨
      ∀ name found, M.host.lookup o name = some found → found.exported = false := by
  refine ⟨recorded_eval M depth, fun pre post tree s vs s' hrun => ⟨?_, ?_⟩, ?_, ?_⟩
  · have hforget := recorded_runAll M depth pre s.recorded
    rw [hrun] at hforget
    exact hforget
  · exact granted_of_run (M.encloses_obtainable _ s) rfl hrun
  · rintro scope t operands s s₁ vs outcome ht hargs rfl
    have heval : (M.recorded.recur (depth + 1)).eval scope (.form (.leaf t :: operands)) s = _ :=
      eval_method (M := M.recorded) ht hargs
    rw [heval]
    exact methodCall_cases M depth t vs _ s₁
  · intro signature xs o ho
    rcases Signature.objects_of_result ho with h | h | ⟨k, rfl⟩
    · exact Or.inl h
    · exact Or.inr (Or.inl h)
    · exact Or.inr (Or.inr fun name found => Host.not_exported_of_no_exports)

/-- In the sample program, a call of an exported method enters one body, which an obtainable object
permits. A call on a list around an object with nothing behind it is interrupted, where a list
should be refused as a receiver. -/
theorem sample_calls_are_safe :
    let s := Sample.furnish (Sample.session .default)
    let leaf (text : Text) : Node := .leaf ⟨.identifier, .start "user", text, .undefined text⟩
    let called : Node := .form [leaf ".Ping", leaf "t"]
    let token : Token := ⟨.identifier, .start "user", ".Foo", .undefined ".Foo"⟩
    let receiver : Node := .form [leaf "list", leaf "void"]
    (∃ i, ((s.machine.recorded.recur 5).eval [] called s.store.recorded).store.host.2 = [i] ∧
      s.machine.Granted (s.machine.Obtainable [called] s.store) i) ∧
    ∃ vs s₁, arguments (s.machine.recorded.recur 5) [] [receiver] s.store.recorded =
        .done (.ok vs) s₁ ∧
      s.machine.Breaks s₁.forget token vs Host.textOfNothing ∧
      (s.machine.recorded.recur 6).eval [] (.form [.leaf token, receiver]) s.store.recorded =
        .raised (.native Host.textOfNothing) s₁ := by
  intro s leaf called token receiver
  obtain ⟨-, hrun, hcall, -⟩ := capability_safety s.machine 5
  constructor
  · have hlength : ((s.machine.recorded.recur 5).eval [] called s.store.recorded).store.host.2.length
        = 1 := by decide +kernel
    obtain ⟨i, hi⟩ := List.length_eq_one_iff.mp hlength
    refine ⟨i, hi, (hrun [] [] called s.store [] s.store.recorded rfl).2 i ?_⟩
    rw [hi]
    exact List.mem_singleton_self i
  · have hargs : (arguments (s.machine.recorded.recur 5) [] [receiver] s.store.recorded).answers =
        true := by decide +kernel
    have hraised : ((s.machine.recorded.recur 6).eval [] (.form [.leaf token, receiver])
        s.store.recorded).interruption? = some Host.textOfNothing := by decide +kernel
    have hsilent : ((s.machine.recorded.recur 6).eval [] (.form [.leaf token, receiver])
        s.store.recorded).store.host.2.length = 0 := by decide +kernel
    obtain ⟨vs, hvs⟩ := Outcome.eq_done_of_answers hargs
    have heval := Outcome.eq_raised_of_interruption hraised
    rcases hcall [] token [receiver] _ _ vs _ (by decide) hvs rfl with
      ⟨o, args, i, more, -, -, hgrown⟩ | ⟨f, -, hdone⟩ | ⟨message, hbreaks, h⟩
    · rw [hgrown] at hsilent
      simp at hsilent
    · rw [heval] at hdone
      cases hdone
    · rw [h] at hraised
      rw [← Option.some.inj hraised]
      exact ⟨vs, _, hvs, hbreaks, h⟩

end Machine

end LittleLisp
