/-
# Derived rules and the call behind them

The signature of a host method is read twice: once for the rules that a validator checks, and
once by the call itself, which counts the arguments and converts each to the type of its
parameter. Both come to the same list of types, one for each argument: those of the parameters,
and the element type of a variadic parameter once for every argument past them.

So a check of the derived rules ends in one of three ways. The arguments are accepted, and then the
call gets to converting them; or there are too few or too many of them; or one of them is the
first to break the rule of its type. The last one is described by the fault, and a check fails
where it cannot be.

Key definitions: `Signature.Takes`, `HostType.Admits`, `Signature.FirstBroken`,
`Signature.converted`.
Key theorems: `Signature.admits_iff`, `Signature.arityFault?_eq_none_iff`, `Signature.ruleAt_eq`,
`Signature.check_cases`, `Signature.callReflected_eq`, `Signature.rules_and_call_agree`.
-/
import Mathlib.Data.List.Forall2
import LittleLisp.Host.Sample

namespace LittleLisp

variable {σ : Type}

/-! ### Traversals that may fail -/

section Traversal

variable {α β ε : Type} {g : α → Except ε β}

/-- A traversal succeeds exactly if every item does. -/
theorem exists_except_mapM_iff : ∀ {xs : List α},
    (∃ ys, xs.mapM g = .ok ys) ↔ ∀ x ∈ xs, ∃ y, g x = .ok y
  | [] => ⟨fun _ => nofun, fun _ => ⟨[], rfl⟩⟩
  | x :: xs => by
    have ih : (∃ ys, xs.mapM g = .ok ys) ↔ ∀ x ∈ xs, ∃ y, g x = .ok y := exists_except_mapM_iff
    simp only [List.mapM_cons, except_bind_eq_ok, List.forall_mem_cons]
    constructor
    · rintro ⟨_, y, hy, ys, hys, -⟩
      exact ⟨⟨y, hy⟩, ih.mp ⟨ys, hys⟩⟩
    · rintro ⟨⟨y, hy⟩, h⟩
      obtain ⟨ys, hys⟩ := ih.mpr h
      exact ⟨y :: ys, y, hy, ys, hys, rfl⟩

/-- A traversal that is interrupted is so at one of the items. -/
theorem exists_of_except_mapM_error {e : ε} : ∀ {xs : List α},
    xs.mapM g = .error e → ∃ x ∈ xs, g x = .error e
  | [], h => by cases h
  | x :: xs, h => by
    rw [List.mapM_cons, except_bind_eq_error] at h
    rcases h with hx | ⟨y, -, h⟩
    · exact ⟨x, List.mem_cons_self, hx⟩
    · rcases except_bind_eq_error.mp h with hxs | ⟨ys, -, h⟩
      · obtain ⟨x', hmem, hx'⟩ := exists_of_except_mapM_error hxs
        exact ⟨x', List.mem_cons_of_mem _ hmem, hx'⟩
      · cases h

end Traversal

/-- A value satisfies the rule of a type. -/
def HostType.Admits (t : HostType) (v : Value) : Prop := t.rule.accepts v = true

namespace Signature

variable {S : Signature} {ts us : List HostType} {vs args : List Value}

/-! ### The types of the arguments -/

/-- The types of the arguments of a call: the parameters, and the element type of a variadic
parameter for every argument past them. -/
inductive Takes (S : Signature) : List HostType → Prop where
  | fixed (h : S.variadic = none) : Takes S S.params
  | variadic {elem : HostType} (h : S.variadic = some elem) (extra : Nat) :
      Takes S (S.params ++ List.replicate extra elem)

/-- How many arguments a signature takes. -/
theorem exists_takes_iff {n : Nat} :
    (∃ ts, S.Takes ts ∧ ts.length = n) ↔
      S.params.length ≤ n ∧ (S.variadic.isSome ∨ n = S.params.length) := by
  constructor
  · rintro ⟨ts, h, rfl⟩
    cases h with
    | fixed h => exact ⟨Nat.le_refl _, Or.inr rfl⟩
    | variadic h extra => exact ⟨by simp, Or.inl (by simp [h])⟩
  · rintro ⟨hle, h⟩
    cases hv : S.variadic with
    | none =>
      have hn : n = S.params.length := by simpa [hv] using h
      exact ⟨_, .fixed hv, hn.symm⟩
    | some elem =>
      refine ⟨_, .variadic hv (n - S.params.length), ?_⟩
      rw [List.length_append, List.length_replicate]
      omega

/-- The derived rules admit the numbers of arguments that the signature takes. -/
theorem admits_iff {n : Nat} :
    S.rules.admits n = true ↔ ∃ ts, S.Takes ts ∧ ts.length = n := by
  rw [exists_takes_iff]
  simp [Rules.admits, rules]

/-- So does the call itself. -/
theorem arityFault?_eq_none_iff {name : Text} {n : Nat} :
    S.arityFault? name n = none ↔ ∃ ts, S.Takes ts ∧ ts.length = n := by
  rw [exists_takes_iff]
  cases hv : S.variadic with
  | none =>
    have hexact : S.params.length ≤ n ∧ n = S.params.length ↔ n = S.params.length := by omega
    simp [arityFault?, hv, hexact]
  | some elem => simp [arityFault?, hv]

/-- The call looks for an argument's type where the signature has it. -/
theorem Takes.typeAt_eq (h : S.Takes ts) {i : Nat} (hi : i < ts.length) : S.typeAt i = ts[i]? := by
  cases h with
  | fixed h => simp [typeAt, hi]
  | @variadic elem h extra =>
    by_cases hp : i < S.params.length
    · rw [List.getElem?_append_left hp, typeAt, if_pos hp]
    · have hlast : i - S.params.length < extra := by
        rw [List.length_append, List.length_replicate] at hi
        omega
      rw [List.getElem?_append_right (by omega), List.getElem?_replicate_of_lt hlast]
      simp [typeAt, hp, h]

/-- The rule of an argument is that of its type: no argument is without one. -/
theorem ruleAt_eq (S : Signature) (i : Nat) :
    S.rules.ruleAt i = (S.typeAt i).map HostType.rule := by
  by_cases hp : i < S.params.length <;> simp [Rules.ruleAt, rules, typeAt, hp]

/-! ### Checking -/

/-- An argument, with its index and its type, is the first one that breaks its rule. -/
inductive FirstBroken : List HostType → List Value → Nat → HostType → Value → Prop where
  | here {t : HostType} {v : Value} {ts : List HostType} {vs : List Value} (h : ¬ t.Admits v) :
      FirstBroken (t :: ts) (v :: vs) 0 t v
  | later {t u : HostType} {v w : Value} {ts : List HostType} {vs : List Value} {i : Nat}
      (hw : u.Admits w) (h : FirstBroken ts vs i t v) :
      FirstBroken (u :: ts) (w :: vs) (i + 1) t v

/-- Either all arguments are accepted or one of them is the first that is not. -/
theorem accepted_or_broken : ∀ {ts : List HostType} {vs : List Value}, ts.length = vs.length →
    List.Forall₂ HostType.Admits ts vs ∨ ∃ i t v, FirstBroken ts vs i t v
  | [], [], _ => Or.inl .nil
  | t :: ts, v :: vs, h => by
    by_cases hv : t.Admits v
    · have hlen : ts.length = vs.length := by simpa using h
      rcases accepted_or_broken hlen with hvs | ⟨i, u, w, hw⟩
      · exact Or.inl (.cons hv hvs)
      · exact Or.inr ⟨_, _, _, .later hv hw⟩
    · exact Or.inr ⟨_, _, _, .here hv⟩

/-- Rules have those of some types from an index on. -/
def RulesFrom (r : Rules) (i : Nat) (ts : List HostType) : Prop :=
  ∀ j < ts.length, r.ruleAt (i + j) = ts[j]?.map HostType.rule

theorem RulesFrom.head {r : Rules} {i : Nat} {t : HostType} (h : RulesFrom r i (t :: ts)) :
    r.ruleAt i = some t.rule := h 0 (Nat.succ_pos _)

theorem RulesFrom.tail {r : Rules} {i : Nat} {t : HostType} (h : RulesFrom r i (t :: ts)) :
    RulesFrom r (i + 1) ts := by
  intro j hj
  have hnext := h (j + 1) (Nat.succ_lt_succ hj)
  rw [List.getElem?_cons_succ] at hnext
  rw [← hnext]
  congr 1
  omega

theorem Takes.rulesFrom (h : S.Takes ts) : RulesFrom S.rules 0 ts := by
  intro j hj
  rw [Nat.zero_add, ruleAt_eq, h.typeAt_eq hj]

theorem firstRefused_of_accepted {r : Rules} (h : List.Forall₂ HostType.Admits ts vs) :
    ∀ {i : Nat}, RulesFrom r i ts → r.firstRefused i vs = none := by
  induction h with
  | nil => exact fun _ => rfl
  | cons hv _ ih =>
    intro i hr
    have hrest := ih hr.tail
    simp [Rules.firstRefused, hr.head, show _ = true from hv, hrest]

theorem firstRefused_of_broken {r : Rules} {j : Nat} {t : HostType} {v : Value}
    (h : FirstBroken ts vs j t v) :
    ∀ {i : Nat}, RulesFrom r i ts → r.firstRefused i vs = some (i + j, t.rule, v) := by
  induction h with
  | here hv =>
    intro i hr
    have hbreaks : _ = false := eq_false_of_ne_true hv
    simp [Rules.firstRefused, hr.head, hbreaks]
  | later hw _ ih =>
    intro i hr
    have hrest := ih hr.tail
    simp only [Rules.firstRefused, hr.head, show _ = true from hw, if_true, hrest]
    congr 2
    omega

/-- The fault for a wrong number of arguments. -/
def miscounted (S : Signature) (n : Nat) : Fault :=
  .unplaced .violation ["expected arguments ", S.rules.text, ", got ", Text.ofNat n]

/-- The fault for an argument that breaks the rule of its type. -/
def violated (i : Nat) (t : HostType) (text : Text) : Fault :=
  .unplaced .violation
    ["argument ", Text.ofNat (i + 1), ": expected ", t.rule.name, ", got ", text]

theorem check_of_accepted {L : Legend} (hts : S.Takes ts)
    (h : List.Forall₂ HostType.Admits ts args) : S.rules.check L args = .ok none := by
  have hn := admits_iff.mpr ⟨ts, hts, h.length_eq⟩
  have hnone := firstRefused_of_accepted h hts.rulesFrom
  simp [Rules.check, hn, hnone]

theorem check_of_miscounted {L : Legend} (h : ∀ ts, S.Takes ts → ts.length ≠ args.length) :
    S.rules.check L args = .ok (some (S.miscounted args.length)) := by
  have hn : ¬ S.rules.admits args.length = true := by
    intro hn
    obtain ⟨ts, hts, hlen⟩ := admits_iff.mp hn
    exact h ts hts hlen
  simp [Rules.check, hn, miscounted]

theorem check_of_broken {L : Legend} {i : Nat} {t : HostType} {v : Value} (hts : S.Takes ts)
    (hlen : ts.length = args.length) (h : FirstBroken ts args i t v) :
    S.rules.check L args = (v.described L).map fun text => some (violated i t text) := by
  have hn := admits_iff.mpr ⟨ts, hts, hlen⟩
  have hsome := firstRefused_of_broken h hts.rulesFrom
  simp only [Rules.check, hn, if_true, hsome, Nat.zero_add]
  cases v.described L <;> rfl

/-- The three ways in which a check of derived rules can end. -/
theorem check_cases (S : Signature) (args : List Value) :
    (∃ ts, S.Takes ts ∧ List.Forall₂ HostType.Admits ts args) ∨
    (∀ ts, S.Takes ts → ts.length ≠ args.length) ∨
    ∃ ts i t v, S.Takes ts ∧ ts.length = args.length ∧ FirstBroken ts args i t v := by
  by_cases hn : ∃ ts, S.Takes ts ∧ ts.length = args.length
  · obtain ⟨ts, hts, hlen⟩ := hn
    rcases accepted_or_broken hlen with hacc | ⟨i, t, v, hbroken⟩
    · exact Or.inl ⟨ts, hts, hacc⟩
    · exact Or.inr (Or.inr ⟨ts, i, t, v, hts, hlen, hbroken⟩)
  · exact Or.inr (Or.inl fun ts hts hlen => hn ⟨ts, hts, hlen⟩)

/-- Acceptance: so many arguments are taken, and each satisfies the rule of its type. -/
theorem check_eq_none_iff {L : Legend} :
    S.rules.check L args = .ok none ↔
      ∃ ts, S.Takes ts ∧ List.Forall₂ HostType.Admits ts args := by
  refine ⟨fun h => ?_, fun ⟨ts, hts, hacc⟩ => check_of_accepted hts hacc⟩
  rcases S.check_cases args with hacc | hmis | ⟨ts, i, t, v, hts, hlen, hbroken⟩
  · exact hacc
  · rw [check_of_miscounted hmis] at h
    cases h
  · rw [check_of_broken hts hlen hbroken] at h
    cases hv : v.described L <;> rw [hv] at h <;> cases h

/-- Rejection: by the number of arguments, or by the first one that breaks its rule. -/
theorem check_eq_some_iff {L : Legend} {f : Fault} :
    S.rules.check L args = .ok (some f) ↔
      ((∀ ts, S.Takes ts → ts.length ≠ args.length) ∧ f = S.miscounted args.length) ∨
      ∃ ts i t v text, S.Takes ts ∧ ts.length = args.length ∧ FirstBroken ts args i t v ∧
        v.described L = .ok text ∧ f = violated i t text := by
  constructor
  · intro h
    rcases S.check_cases args with ⟨ts, hts, hacc⟩ | hmis | ⟨ts, i, t, v, hts, hlen, hbroken⟩
    · rw [check_of_accepted hts hacc] at h
      cases h
    · rw [check_of_miscounted hmis] at h
      cases h
      exact Or.inl ⟨hmis, rfl⟩
    · rw [check_of_broken hts hlen hbroken] at h
      cases hv : v.described L with
      | error e =>
        rw [hv] at h
        cases h
      | ok text =>
        rw [hv] at h
        cases h
        exact Or.inr ⟨ts, i, t, v, text, hts, hlen, hbroken, hv, rfl⟩
  · rintro (⟨hmis, rfl⟩ | ⟨ts, i, t, v, text, hts, hlen, hbroken, hv, rfl⟩)
    · exact check_of_miscounted hmis
    · rw [check_of_broken hts hlen hbroken, hv]
      rfl

/-- Failure: the first argument that breaks its rule cannot be described. -/
theorem check_eq_error_iff {L : Legend} {e : Text} :
    S.rules.check L args = .error e ↔
      ∃ ts i t v, S.Takes ts ∧ ts.length = args.length ∧ FirstBroken ts args i t v ∧
        v.described L = .error e := by
  constructor
  · intro h
    rcases S.check_cases args with ⟨ts, hts, hacc⟩ | hmis | ⟨ts, i, t, v, hts, hlen, hbroken⟩
    · rw [check_of_accepted hts hacc] at h
      cases h
    · rw [check_of_miscounted hmis] at h
      cases h
    · rw [check_of_broken hts hlen hbroken] at h
      refine ⟨ts, i, t, v, hts, hlen, hbroken, ?_⟩
      cases hv : v.described L with
      | ok text =>
        rw [hv] at h
        cases h
      | error e' =>
        rw [hv] at h
        cases h
        rfl
  · rintro ⟨ts, i, t, v, hts, hlen, hbroken, hv⟩
    rw [check_of_broken hts hlen hbroken, hv]
    rfl

/-! ### Converting -/

/-- What the failure to convert an argument is told as. -/
def argumentAlarm (name : Text) (i : Nat) : Alarm → Alarm
  | .fault f =>
    .fault (.unplaced .argument [name, ": argument ", Text.ofNat (i + 1), ": ", f.message])
  | .native message => .native message

/-- Each argument as a host value of its own type, in order, up to the first that has none. -/
def converted (H : HostTypes) (L : Legend) (name : Text) (ts : List HostType)
    (args : List Value) : Except Alarm (List HostValue) :=
  ((ts.zip args).zipIdx).mapM fun e =>
    (HostValue.ofValue H L e.1.2 e.1.1).mapError (argumentAlarm name e.2)

/-- The call converts the arguments from an index on to types that are found there. -/
theorem convert_eq_mapM (H : HostTypes) (L : Legend) (name : Text) :
    ∀ (us : List HostType) (vs : List Value) (i : Nat), us.length = vs.length →
      (∀ j < us.length, S.typeAt (i + j) = us[j]?) →
      S.convert H L name i vs = ((us.zip vs).zipIdx i).mapM fun e =>
        (HostValue.ofValue H L e.1.2 e.1.1).mapError (argumentAlarm name e.2)
  | [], [], _, _, _ => rfl
  | u :: us, v :: vs, i, hlen, hus => by
    have hhead : S.typeAt i = some u := hus 0 (Nat.succ_pos _)
    have hrest := convert_eq_mapM H L name us vs (i + 1) (by simpa using hlen)
      fun j hj => by
        have hnext := hus (j + 1) (Nat.succ_lt_succ hj)
        rwa [show i + 1 + j = i + (j + 1) by omega]
    rw [List.zip_cons_cons, List.zipIdx_cons, List.mapM_cons, ← hrest, convert, hhead,
      Option.getD_some]
    cases hv : HostValue.ofValue H L v u with
    | ok x => cases S.convert H L name (i + 1) vs <;> rfl
    | error a => cases a <;> rfl

theorem convert_eq {H : HostTypes} {L : Legend} {name : Text} (hts : S.Takes ts)
    (hlen : ts.length = args.length) :
    S.convert H L name 0 args = converted H L name ts args := by
  refine convert_eq_mapM H L name ts args 0 hlen fun j hj => ?_
  rw [Nat.zero_add, hts.typeAt_eq hj]

/-- The faults of conversion are about arguments, and never about their number. -/
theorem kind_of_converted {H : HostTypes} {L : Legend} {name : Text} {f : Fault}
    (h : converted H L name ts args = .error (.fault f)) : f.kind = .argument := by
  obtain ⟨e, -, he⟩ := exists_of_except_mapM_error h
  cases hv : HostValue.ofValue H L e.1.2 e.1.1 with
  | ok x =>
    rw [hv] at he
    cases he
  | error a =>
    rw [hv] at he
    cases a with
    | native message => cases he
    | fault g =>
      cases he
      rfl

/-- A call with as many arguments as the signature takes gets to converting them. -/
theorem callReflected_eq (H : Host σ) {m : ReflectedMethod σ} (name : Text) (receiver : Handle)
    (L : Legend) (s : σ) (hts : m.signature.Takes ts) (hlen : ts.length = args.length) :
    H.callReflected name receiver m L args s =
      match converted H.types L name ts args with
      | .ok xs => Host.callReflected.finish H name m (m.body receiver xs s)
      | .error (.fault f) => .done s (.error f)
      | .error (.native message) => .raise s (.native message) := by
  have harity : m.signature.arityFault? name args.length = none :=
    arityFault?_eq_none_iff.mpr ⟨ts, hts, hlen⟩
  rw [Host.callReflected, harity]
  simp only [convert_eq hts hlen]
  cases converted H.types L name ts args with
  | ok xs => rfl
  | error a => cases a <;> rfl

/-- **Derived rules and the call behind them agree.** For every signature and every list of
arguments, a check of the derived rules accepts exactly the admissible numbers of arguments that
all satisfy the rules of their types, and no argument of such a number is without a rule. Then the
call does not find their number wrong, and it converts them to those same types. What a check
rejects with is a violation, about the number of arguments or else about the first one that breaks
its rule, and the check fails exactly where that argument cannot be described. -/
theorem rules_and_call_agree (H : Host σ) (m : ReflectedMethod σ) (name : Text)
    (receiver : Handle) (L : Legend) (args : List Value) (s : σ) :
    let S := m.signature
    (S.rules.check L args = .ok none ↔
      ∃ ts, S.Takes ts ∧ List.Forall₂ HostType.Admits ts args) ∧
    (∀ ts, S.Takes ts → ts.length = args.length → ∀ i < args.length,
      ∃ t, ts[i]? = some t ∧ S.rules.ruleAt i = some t.rule) ∧
    (∀ ts, S.Takes ts → List.Forall₂ HostType.Admits ts args →
      S.arityFault? name args.length = none ∧
      (∀ f, converted H.types L name ts args = .error (.fault f) → f.kind = .argument) ∧
      H.callReflected name receiver m L args s =
        match converted H.types L name ts args with
        | .ok xs => Host.callReflected.finish H name m (m.body receiver xs s)
        | .error (.fault f) => .done s (.error f)
        | .error (.native message) => .raise s (.native message)) ∧
    (∀ f, S.rules.check L args = .ok (some f) ↔
      ((∀ ts, S.Takes ts → ts.length ≠ args.length) ∧ f = S.miscounted args.length) ∨
      ∃ ts i t v text, S.Takes ts ∧ ts.length = args.length ∧ FirstBroken ts args i t v ∧
        v.described L = .ok text ∧ f = violated i t text) ∧
    (∀ f, S.rules.check L args = .ok (some f) → f.kind = .violation) ∧
    (∀ e, S.rules.check L args = .error e ↔
      ∃ ts i t v, S.Takes ts ∧ ts.length = args.length ∧ FirstBroken ts args i t v ∧
        v.described L = .error e) := by
  intro S
  refine ⟨check_eq_none_iff, fun ts hts hlen i hi => ?_, fun ts hts hacc => ?_,
    fun f => check_eq_some_iff, fun f h => ?_, fun e => check_eq_error_iff⟩
  · have ht : i < ts.length := by omega
    refine ⟨ts[i], List.getElem?_eq_getElem ht, ?_⟩
    rw [ruleAt_eq, hts.typeAt_eq ht, List.getElem?_eq_getElem ht, Option.map_some]
  · have hlen := hacc.length_eq
    exact ⟨arityFault?_eq_none_iff.mpr ⟨ts, hts, hlen⟩, fun f => kind_of_converted,
      callReflected_eq H name receiver L s hts hlen⟩
  · rcases check_eq_some_iff.mp h with ⟨-, rfl⟩ | ⟨_, _, _, _, _, _, _, _, _, rfl⟩ <;> rfl

/-- A method that joins texts is checked and called with two further ones, and refuses `nil`. -/
theorem rules_and_call_agree_for_joining :
    let join : ReflectedMethod Sample.State :=
      ⟨⟨[.text], some .text, [.text]⟩, fun _ args s => .done s (.ok [Sample.joined args])⟩
    let L := (Sample.session .default).store.legend Sample.host
    let args : List Value := [.string "-", .keyword ":a", .string "b"]
    join.signature.rules.check L args = .ok none ∧
    Sample.host.callReflected "Cat" Sample.kit join L args .initial =
      .done .initial (.string ":a-b") ∧
    join.signature.rules.check L [.string "-", .nil] =
      .ok (some (violated 1 .text "nil")) := by
  intro join L args
  have htakes (n : Nat) : join.signature.Takes (.text :: List.replicate n .text) := .variadic rfl n
  have haccepted : List.Forall₂ HostType.Admits [.text, .text, .text] args :=
    .cons rfl (.cons rfl (.cons rfl .nil))
  have hbroken : FirstBroken [.text, .text] [.string "-", .nil] 1 .text .nil :=
    .later rfl (.here nofun)
  have hagree (args : List Value) :=
    rules_and_call_agree Sample.host join "Cat" Sample.kit L args .initial
  obtain ⟨haccepts, -, hcall, -⟩ := hagree args
  obtain ⟨-, -, -, hrejects, -⟩ := hagree [.string "-", .nil]
  refine ⟨haccepts.mpr ⟨_, htakes 2, haccepted⟩, ?_, ?_⟩
  · exact (hcall _ (htakes 2) haccepted).2.2
  · exact (hrejects _).mpr (Or.inr ⟨_, 1, .text, .nil, "nil", htakes 1, rfl, hbroken, rfl, rfl⟩)

end Signature

end LittleLisp
