/-
# `map` calls in order

`(map f l)` calls `f` on the items of `l` from first to last, once each, and gives the list of the
results; the first result that is a fault ends this, and takes the place of the list.

The prelude writes `map` in the language itself, as a function that calls itself with the rest of
its list. So its names are looked up once more after every call of `f`, and have to be bound to
the same at these moments. The empty list is found by counting, so the argument also rests on
numbers: no number of items other than none is converted to a float that equals zero.

Key definitions: `Machine.calls`, `Machine.Called`, `Machine.Rendered`.
Key theorems: `Number.ofNat_ne_zero`, `Machine.rendered_map`, `Machine.map_calls_in_order`.
-/
import Mathlib
import LittleLisp.Proofs.Prelude.Forms

namespace LittleLisp

variable {σ : Type}

/-! ### Counting -/

namespace Number

open Float.Model Float.Model.UnpackedFloat

theorem toNat_exponent (b : UInt64) :
    (@unpackExponent Format.binary64 b.toBitVec).toNat = b.toNat / 2 ^ 52 % 2 ^ 11 := by
  simp [unpackExponent, BitVec.extractLsb, BitVec.extractLsb', Nat.shiftRight_eq_div_pow]

theorem unpack_components_ne_zero {sign : Sign} {e : BitVec Format.binary64.exponentBits}
    {m : BitVec Format.binary64.mantissaBitsWithoutImplicit} (he : e ≠ 0#_) (s : Sign) :
    UnpackedFloat.unpack Format.binary64 (packComponents Format.binary64 sign e m) ≠ .zero s := by
  unfold UnpackedFloat.unpack
  simp only [unpackExponent_packComponents, unpackMantissa_packComponents]
  split_ifs <;> simp

/-- The significand of a normal number has 53 bits. -/
theorem log2_significand (m : BitVec 52) : (1#1 ++ m).toNat.log2 + 1 = 53 := by
  have hsum : (1#1 ++ m).toNat = 2 ^ 52 + m.toNat := by
    rw [BitVec.toNat_append, ← Nat.shiftLeft_add_eq_or_of_lt m.isLt]
    rfl
  have hlt := m.isLt
  have hlog : (2 ^ 52 + m.toNat).log2 = 52 := (Nat.log2_eq_iff (by omega)).mpr ⟨by omega, by omega⟩
  rw [hsum, hlog]

/-- The bits of a positive normal number make a float other than zero. -/
theorem unpack_ofBits_ne_zero {b : UInt64} (hlow : 2 ^ 52 ≤ b.toNat)
    (hhigh : b.toNat < 2047 * 2 ^ 52) (s : Sign) :
    Float.Model.unpack (Float.Model.ofBits b) ≠ .zero s := by
  have hexp := toNat_exponent b
  rw [Nat.mod_eq_of_lt (by omega)] at hexp
  have hone : @unpackExponent Format.binary64 b.toBitVec ≠ -1#_ := fun he => by
    have htop := congrArg BitVec.toNat he
    simp at htop
    omega
  have hzero : @unpackExponent Format.binary64 b.toBitVec ≠ 0#_ := fun he => by
    have hbottom := congrArg BitVec.toNat he
    simp at hbottom
    omega
  have hbiased : ((@unpackExponent Format.binary64 b.toBitVec).toNat -
      ((Format.binary64.exponentBias : Int) + Format.binary64.mantissaBitsWithoutImplicit) +
        Format.binary64.exponentBias + Format.binary64.mantissaBitsWithoutImplicit).toNat =
          b.toNat / 2 ^ 52 := by omega
  change UnpackedFloat.unpack _ (UnpackedFloat.pack _ (UnpackedFloat.unpack _ _)) ≠ _
  generalize hu : UnpackedFloat.unpack Format.binary64 b.toBitVec = u
  unfold UnpackedFloat.unpack at hu
  simp only [hone, hzero, if_false] at hu
  subst hu
  unfold UnpackedFloat.pack
  dsimp only
  rw [hbiased, if_neg (by simp; omega),
    if_pos (c := _ = Format.binary64.mantissaBits) (log2_significand _)]
  refine unpack_components_ne_zero (fun he => ?_) s
  have hbottom := congrArg BitVec.toNat he
  simp at hbottom
  omega

theorem ofBits_ne_zero {b : UInt64} (hlow : 2 ^ 52 ≤ b.toNat) (hhigh : b.toNat < 2047 * 2 ^ 52) :
    (Float.ofBits b == ofNat 0) = false := by
  have hzero : (ofNat 0).toModel.unpack = .zero .positive := rfl
  change ((Float.Model.ofBits b).unpack.compare (ofNat 0).toModel.unpack == some .eq) = false
  rw [hzero]
  cases hu : (Float.Model.ofBits b).unpack with
  | zero s => exact absurd hu (unpack_ofBits_ne_zero hlow hhigh s)
  | notANumber => rfl
  | infinity s => cases s <;> rfl
  | finite s m e hm => cases s <;> rfl

/-- Only no things at all are counted as zero. -/
theorem ofNat_ne_zero {n : Nat} (hn : n ≠ 0) : (ofNat n == ofNat 0) = false := by
  have hinfinite : (infinity false == ofNat 0) = false := by decide +kernel
  have hexp : -53 ≤ (binary64.round n 1).2 := by
    have hlog : Nat.log2 1 = 0 := rfl
    simp only [Format.round, binary64, hlog]
    split_ifs <;> omega
  have hpow : Nat.pow 2 52 = 2 ^ 52 := rfl
  rw [ofNat, ofFraction, nearest, hpow]
  generalize binary64.round n 1 = r at hexp ⊢
  obtain ⟨m, e⟩ := r
  change -53 ≤ e at hexp
  dsimp only
  rw [if_neg hn]
  by_cases hsmall : (e + 1074).toNat * 2 ^ 52 + m < 2047 * 2 ^ 52
  · have hlow : 2 ^ 52 ≤ (e + 1074).toNat * 2 ^ 52 := Nat.le_mul_of_pos_left _ (by omega)
    have hbits : (UInt64.ofNat ((e + 1074).toNat * 2 ^ 52 + m)).toNat =
        (e + 1074).toNat * 2 ^ 52 + m :=
      UInt64.toNat_ofNat_of_lt' (by rw [UInt64.size]; omega)
    rw [if_pos hsmall, if_neg Bool.false_ne_true, Nat.add_zero, Option.getD_some]
    have hne := ofBits_ne_zero (b := .ofNat ((e + 1074).toNat * 2 ^ 52 + m)) (by omega) (by omega)
    exact hne
  · rw [if_neg hsmall]
    exact hinfinite

end Number

/-! ### Lists -/

namespace Value

theorem fault_or_not (v : Value) : (∃ f, v = .error f) ∨ v.isError = false := by
  cases v <;> simp [isError]

/-- The items of a list; `nil` is the empty list. -/
def items? : Value → Option (List Value)
  | .nil => some []
  | .list _ items => some items
  | _ => none

theorem items?_eq_some {v : Value} {items : List Value} :
    v.items? = some items ↔ (v = .nil ∧ items = []) ∨ ∃ k, v = .list k items := by
  unfold items?
  split <;> simp_all [eq_comm]

end Value

namespace Builtin

variable {L : Legend} {v : Value} {items : List Value}

theorem apply_count (h : v.items? = some items) :
    Builtin.count.apply L [v] = .ok (.number (Number.ofNat items.length)) := by
  rcases Value.items?_eq_some.mp h with ⟨rfl, rfl⟩ | ⟨k, rfl⟩ <;> rfl

theorem apply_rest (h : v.items? = some items) :
    Builtin.rest.apply L [v] = .ok (.list 0 items.tail) := by
  rcases Value.items?_eq_some.mp h with ⟨rfl, rfl⟩ | ⟨k, rfl⟩
  · rfl
  · rcases items with _ | ⟨x, _ | ⟨y, ys⟩⟩ <;> rfl

theorem apply_get (coll key : Value) : Builtin.get.apply L [coll, key] = getFrom L coll key .nil :=
  rfl

theorem apply_get_zero (k : Nat) (x : Value) (xs : List Value) :
    Builtin.get.apply L [.list k (x :: xs), .number (Number.ofNat 0)] = .ok x := by
  have hindex : Number.toIndex (Number.ofNat 0) = some 0 := by decide +kernel
  simp [apply_get, getFrom, Value.number?, hindex]

end Builtin

/-- Of two positions that a fault is given, one counts. -/
theorem Fault.located_located (f : Fault) (p q : Position) :
    ∃ r, (f.located p).located q = f.located r := by
  cases hp : p.isUnknown with
  | true => exact ⟨q, by simp [located, Position.orElse, hp]⟩
  | false =>
    have hknown : (f.located p).pos.isUnknown = false := by
      simp only [located, Position.orElse, hp]
      split_ifs <;> simp_all
    exact ⟨p, located_of_known hknown q⟩

namespace Machine

open Outcome (Same)

/-! ### Calls in order -/

section Calls

variable (self : Recur σ) (ref : Nat)

/-- Calls a function on each of some values, up to the first result that is a fault. A list is made
of what is left after every call, and of what there is so far on the way back. -/
def calls : List Value → Action σ (Checked (List Value))
  | [] => pure (.ok [])
  | x :: xs => do
    match ← self.call ref [x.orNil] with
    | .error f => return .error f
    | v =>
      Action.modify (Store.made xs)
      match ← calls xs with
      | .error f => return .error f
      | .ok vs =>
        Action.modify (Store.made (v :: vs))
        return .ok (v :: vs)

/-- The calls on the first values come to the point where the second ones are left, in a store that
the calls before leave. -/
inductive Called : List Value → Store σ → List Value → Store σ → Prop where
  | here {xs : List Value} {s : Store σ} : Called xs s xs s
  | next {x v : Value} {xs rest : List Value} {s t u : Store σ}
      (hcall : self.call ref [x.orNil] s = .done v t) (hv : v.isError = false)
      (h : Called xs (t.made xs) rest u) : Called (x :: xs) s rest u

variable {self ref} {x v : Value} {xs vs : List Value} {s t u : Store σ}

/-- One call after which there are others. -/
theorem calls_cons (hcall : self.call ref [x.orNil] s = .done v t) (hv : v.isError = false) :
    calls self ref (x :: xs) s = (do
      match ← calls self ref xs with
      | .error f => return Except.error f
      | .ok vs =>
        Action.modify (Store.made (v :: vs))
        return .ok (v :: vs)) (t.made xs) := by
  rw [calls, Action.bind_done hcall]
  cases v with
  | error f => simp [Value.isError] at hv
  | _ => rfl

theorem calls_of_fault {f : Fault} (hcall : self.call ref [x.orNil] s = .done (.error f) t) :
    calls self ref (x :: xs) s = .done (.error f) t :=
  Action.bind_done hcall

/-- If each call comes to an end, all of them do. -/
theorem calls_end : ∀ {xs : List Value} {s : Store σ},
    (∀ x rest u, Called self ref xs s (x :: rest) u →
      ∃ v t, self.call ref [x.orNil] u = .done v t) →
    ∃ r t, calls self ref xs s = .done r t
  | [], s, _ => ⟨_, s, rfl⟩
  | x :: xs, s, hends => by
    obtain ⟨v, t, hcall⟩ := hends x xs s .here
    rcases v.fault_or_not with ⟨f, rfl⟩ | hv
    · exact ⟨_, t, calls_of_fault hcall⟩
    · obtain ⟨r, u, hr⟩ := calls_end fun y rest w hy => hends y rest w (.next hcall hv hy)
      rw [calls_cons hcall hv, Action.bind_done hr]
      cases r with
      | error f => exact ⟨_, _, rfl⟩
      | ok vs => exact ⟨_, _, rfl⟩

/-- There are as many results as values. -/
theorem length_of_calls : ∀ {xs vs : List Value} {s t : Store σ},
    calls self ref xs s = .done (.ok vs) t → vs.length = xs.length
  | [], vs, s, t, h => by
    obtain ⟨hvs, -⟩ := Outcome.done.inj h
    rw [← Except.ok.inj hvs]
  | x :: xs, vs, s, t, h => by
    obtain ⟨v, u, hcall, -⟩ := Action.bind_eq_done.mp h
    rcases v.fault_or_not with ⟨f, rfl⟩ | hv
    · rw [calls_of_fault hcall] at h
      simp at h
    · rw [calls_cons hcall hv] at h
      obtain ⟨r, w, hr, h⟩ := Action.bind_eq_done.mp h
      cases r with
      | error f => cases h
      | ok ws =>
        obtain ⟨hvs, -⟩ := Outcome.done.inj h
        rw [← Except.ok.inj hvs, List.length_cons, length_of_calls hr, List.length_cons]

end Calls

/-! ### What becomes of the results -/

/-- The results are put into a list. A fault that has no position may get one. -/
inductive Rendered : Outcome σ (Checked (List Value)) → Outcome σ Value → Prop where
  | list {vs : List Value} {s : Store σ} (k : Nat) :
      Rendered (.done (.ok vs) s) (.done (.list k vs) s)
  | fault {f : Fault} {s : Store σ} (p : Position) :
      Rendered (.done (.error f) s) (.done (.error (f.located p)) s)
  | raised (alarm : Alarm) (s : Store σ) : Rendered (.raised alarm s) (.raised alarm s)
  | endless (s : Store σ) {o : Outcome σ Value} (ho : o.result = none) : Rendered (.exhausted s) o

namespace Rendered

variable {α : Type} {o : Outcome σ (Checked (List Value))} {o' o'' : Outcome σ Value}
  {s t : Store σ}

theorem same (h : Rendered o o') (h' : Same o' o'') : Rendered o o'' := by
  cases h with
  | list k => rw [Outcome.same_done_iff.mp h'.symm]; exact .list k
  | fault p => rw [Outcome.same_done_iff.mp h'.symm]; exact .fault p
  | raised alarm s => rw [← h'.eq_of_ends (by simp [Outcome.result])]; exact .raised alarm s
  | endless s ho => exact .endless s (Eq.trans (Eq.symm h') ho)

/-- Two chains that start with the same. -/
theorem bind_same {x : Action σ α} {f : α → Action σ (Checked (List Value))}
    {g : α → Action σ Value} (h : ∀ a t, x s = .done a t → Rendered (f a t) (g a t)) :
    Rendered ((x >>= f) s) ((x >>= g) s) := by
  change Rendered (Action.bind x f s) (Action.bind x g s)
  unfold Action.bind
  cases hx : x s with
  | done a t => exact h a t hx
  | raised alarm t => exact .raised alarm t
  | exhausted t => exact .endless t rfl

/-- Two chains that start with calls and what becomes of their results. -/
theorem bind {x : Action σ (Checked (List Value))} {y : Action σ Value}
    {f : Checked (List Value) → Action σ (Checked (List Value))} {g : Value → Action σ Value}
    (h : Rendered (x s) (y t))
    (hlist : ∀ vs u k, y t = .done (.list k vs) u → Rendered (f (.ok vs) u) (g (.list k vs) u))
    (hfault : ∀ e u p, Rendered (f (.error e) u) (g (.error (e.located p)) u)) :
    Rendered ((x >>= f) s) ((y >>= g) t) := by
  change Rendered (Action.bind x f s) (Action.bind y g t)
  unfold Action.bind
  generalize x s = o at h
  cases hy : y t with
  | done v u =>
    rw [hy] at h
    cases h with
    | list k => exact hlist _ _ k hy
    | fault p => exact hfault _ _ p
    | endless w ho => simp [Outcome.result] at ho
  | raised alarm u =>
    rw [hy] at h
    cases h with
    | raised => exact .raised alarm u
    | endless w ho => simp [Outcome.result] at ho
  | exhausted u =>
    rw [hy] at h
    cases h with
    | endless w ho => exact .endless w rfl

/-- What has become of the results stays, if faults get a position. -/
theorem located {y : Action σ Value} (h : Rendered o (y s)) (p : Position) :
    Rendered o ((do
      let v ← y
      return v.located p) s) := by
  change Rendered o (Action.bind y _ s)
  unfold Action.bind
  cases hy : y s with
  | done v t =>
    rw [hy] at h
    cases h with
    | list k => exact .list k
    | fault q =>
      rename_i f
      obtain ⟨r, hr⟩ := f.located_located q p
      have hfault : Rendered (.done (.error f) t) (.done (.error (f.located r)) t) := .fault r
      rwa [← hr] at hfault
    | endless u ho => simp [Outcome.result] at ho
  | raised alarm t =>
    rw [hy] at h
    exact h
  | exhausted t =>
    rw [hy] at h
    exact h

end Rendered

/-! ### The body of `map` -/

/-- The trees that the prelude defines `map` by. -/
def mapTrees : List Sketch :=
  [.form ["if", .form ["=", .form ["count", "l"], "0"], .form ["list"],
    .form ["cons", .form ["f", .form ["get", "l", "0"]], .form ["map", "f", .form ["rest", "l"]]]]]

theorem map_mem : .function "map" ["f", "l"] mapTrees ∈ preludeDefinitions := by
  simp [preludeDefinitions, mapTrees]

/-- The built-in functions that `map` makes use of. -/
def mapBuiltins : List Builtin := [.eq, .count, .list, .cons, .get, .rest]

/-- The names that are looked up while `map` runs. -/
def mapNames : List Text := "map" :: "if" :: mapBuiltins.map Builtin.name

/-- What `map` relies on in a store: that it is itself what the prelude says, and what the special
form and the built-in functions in its body do. -/
structure MapReady (trees : List Node) (s : Store σ) : Prop where
  map : s.body? "map" = some (.closure ⟨["f", "l"], none, trees, []⟩)
  conditional : s.expander? "if" = some (.special .conditional)
  builtins : ∀ b ∈ mapBuiltins, s.body? b.name = some (.builtin b)

theorem MapReady.grows {trees : List Node} {s t : Store σ} (h : MapReady trees s) (ht : s.Grows t)
    (hnames : ∀ name ∈ mapNames, t.find? name = s.find? name) : MapReady trees t where
  map := ht.body? (hnames _ (by simp [mapNames])) h.map
  conditional := ht.expander? (hnames _ (by simp [mapNames])) h.conditional
  builtins b hb :=
    ht.body? (hnames _ (by simp [mapNames, List.mem_map_of_mem hb])) (h.builtins b hb)

/-- The scope in which the body of `map` is evaluated. -/
def mapScope (ref : Nat) (l : Value) : Scope := [("f", .function ref), ("l", l)]

section Body

variable {M : Machine σ} (hsigil : M.effectiveSigil = defaultSigil) {trees : List Node} {ref : Nat}
  {l : Value} {items : List Value} {s : Store σ} (hs : MapReady trees s) {n : Node}

theorem isWord_zero {t : Token} (h : t.IsWord "0") :
    t.type = .literal ∧ t.value = .number (Number.ofNat 0) :=
  ⟨congrArg Token.type h, congrArg Token.value h⟩

theorem gives_zero {t : Token} (h : t.IsWord "0") (self : Recur σ) (scope : Scope) (s : Store σ) :
    Gives self scope (.leaf t) s (.number (Number.ofNat 0)) s := by
  obtain ⟨htype, hvalue⟩ := isWord_zero h
  have hgives : Gives self scope (.leaf t) s t.value.orNil s :=
    .literal (by simp [htype]) (by simp [htype])
  rwa [hvalue] at hgives

theorem gives_list {t : Token} (h : t.IsWord "l") (self : Recur σ) (s : Store σ) :
    Gives self (mapScope ref l) (.leaf t) s l s := by
  obtain ⟨htype, htext⟩ := h.identifier (by decide)
  exact .ofScope htype (by rw [htext]; rfl)

theorem gives_function {t : Token} (h : t.IsWord "f") (self : Recur σ) (s : Store σ) :
    Gives self (mapScope ref l) (.leaf t) s (.function ref) s := by
  obtain ⟨htype, htext⟩ := h.identifier (by decide)
  exact .ofScope htype (by rw [htext]; rfl)

include hsigil hs

/-- A built-in function in the body. -/
theorem eval_mapBuiltin (b : Builtin) (hb : b ∈ mapBuiltins) {head : Token} (h : head.IsWord b.name)
    {operands : List Node} {args : List Value} {v : Value} {t : Store σ}
    (hargs : Collected M.unbounded (mapScope ref l) operands s args t)
    (hv : b.apply (t.legend M.host) args = .ok v) (herror : v.isError = false) :
    M.unbounded.eval (mapScope ref l) (.form (.leaf head :: operands)) s = given b v t := by
  have hword : ∀ b ∈ mapBuiltins, ¬ Token.IsConstant b.name ∧
      defaultSigil.extendedBy b.name = false ∧ b.name ≠ "f" ∧ b.name ≠ "l" := by decide
  obtain ⟨hconst, hmethod, hf, hl⟩ := hword b hb
  have hfree : (mapScope ref l).find? b.name = none := by simp [mapScope, Bindings.find?, hf, hl]
  exact unbounded_builtin (heads_of_word hsigil h ⟨hconst, hmethod⟩ hfree) (hs.builtins b hb) hargs
    hv herror

theorem eval_isEmpty (hn : (Sketch.form ["=", .form ["count", "l"], "0"]).Reads n)
    (hl : l.items? = some items) :
    M.unbounded.eval (mapScope ref l) n s = .done (.bool items.isEmpty) s := by
  obtain ⟨_, rfl, _, _, rfl, ⟨eq, rfl, heq⟩, _, _, rfl, ⟨_, rfl, _, _, rfl, ⟨count, rfl, hcount⟩,
    _, _, rfl, ⟨tl, rfl, htl⟩, rfl⟩, _, _, rfl, ⟨zero, rfl, hzero⟩, rfl⟩ := hn
  have hlength : M.unbounded.eval (mapScope ref l) (.form [.leaf count, .leaf tl]) s =
      .done (.number (Number.ofNat items.length)) s :=
    eval_mapBuiltin hsigil hs .count (by decide) hcount (.cons (gives_list htl _ s) .nil)
      (Builtin.apply_count hl) rfl
  have hsame : (Number.ofNat items.length == Number.ofNat 0) = items.isEmpty := by
    cases items with
    | nil => decide +kernel
    | cons x xs => exact Number.ofNat_ne_zero (by simp)
  have hargs : Collected M.unbounded (mapScope ref l)
      [.form [.leaf count, .leaf tl], .leaf zero] s
      [.number (Number.ofNat items.length), .number (Number.ofNat 0)] s :=
    .cons (.tree (by simp) hlength (by simp)) (.cons (gives_zero hzero _ _ s) .nil)
  refine (eval_mapBuiltin hsigil hs .eq (by decide) heq hargs (v := .bool items.isEmpty) ?_ rfl)
  rw [Builtin.apply_eq, ← hsame]
  rfl

theorem eval_noItems (hn : (Sketch.form ["list"]).Reads n) :
    M.unbounded.eval (mapScope ref l) n s = .done (.list 0 []) s := by
  obtain ⟨_, rfl, _, _, rfl, ⟨list, rfl, hlist⟩, rfl⟩ := hn
  exact eval_mapBuiltin hsigil hs .list (by decide) hlist .nil rfl rfl

/-- The function is called on the first item. -/
theorem eval_firstCall (hn : (Sketch.form ["f", .form ["get", "l", "0"]]).Reads n) {k : Nat}
    {x : Value} {xs : List Value} (hx : x.isError = false) :
    Same (M.unbounded.eval (mapScope ref (.list k (x :: xs))) n s)
      ((do
        let v ← M.unbounded.call ref [x.orNil]
        return v.located n.position) s) := by
  obtain ⟨_, rfl, _, _, rfl, ⟨f, rfl, hf⟩, _, _, rfl, ⟨_, rfl, _, _, rfl, ⟨get, rfl, hget⟩, _, _,
    rfl, ⟨tl, rfl, htl⟩, _, _, rfl, ⟨zero, rfl, hzero⟩, rfl⟩, rfl⟩ := hn
  have hitem : M.unbounded.eval (mapScope ref (.list k (x :: xs)))
      (.form [.leaf get, .leaf tl, .leaf zero]) s = .done x.orNil s :=
    eval_mapBuiltin hsigil hs .get (by decide) hget
      (.cons (gives_list htl _ s) (.cons (gives_zero hzero _ _ s) .nil))
      (Builtin.apply_get_zero k x xs) hx
  have hargs : Collected M.unbounded (mapScope ref (.list k (x :: xs)))
      [.form [.leaf get, .leaf tl, .leaf zero]] s [x.orNil] s :=
    .cons (.tree (by simp) hitem (Value.ne_error (x.isError_orNil.trans hx))) .nil
  obtain ⟨htype, htext⟩ := hf.identifier (by decide)
  have hmethod := isMethodName_eq_false hsigil (by decide) htext
  have hhead : M.headValue (mapScope ref (.list k (x :: xs))) f s = .ok (.function ref) := by
    simp only [headValue, htype, hmethod]
    exact resolve_ok_iff.mpr (Or.inl (by rw [htext]; rfl))
  refine (unbounded_function htype hhead hmethod _).trans (.of_eq ?_)
  exact Action.bind_done (arguments_of_collected hargs)

/-- The function is handed on with the rest of the items. -/
theorem eval_moreCalls (hn : (Sketch.form ["map", "f", .form ["rest", "l"]]).Reads n)
    (hl : l.items? = some items) {own : Nat} (hown : s.find? "map" = some (.function own)) :
    ∃ k, Same (M.unbounded.eval (mapScope ref l) n s)
      ((do
        let v ← M.unbounded.call own [.function ref, .list k items.tail]
        return v.located n.position) (s.made items.tail)) := by
  obtain ⟨_, rfl, _, _, rfl, ⟨map, rfl, hmap⟩, _, _, rfl, ⟨f, rfl, hf⟩, _, _, rfl, ⟨_, rfl, _, _,
    rfl, ⟨rest, rfl, hrest⟩, _, _, rfl, ⟨tl, rfl, htl⟩, rfl⟩, rfl⟩ := hn
  obtain ⟨k, hk⟩ := Action.stamped_list items.tail s
  have hitems : M.unbounded.eval (mapScope ref l) (.form [.leaf rest, .leaf tl]) s =
      .done (.list k items.tail) (s.made items.tail) :=
    (eval_mapBuiltin hsigil hs .rest (by decide) hrest (.cons (gives_list htl _ s) .nil)
      (Builtin.apply_rest hl) rfl).trans hk
  have hargs : Collected M.unbounded (mapScope ref l)
      [.leaf f, .form [.leaf rest, .leaf tl]] s [.function ref, .list k items.tail]
      (s.made items.tail) :=
    .cons (gives_function hf _ s) (.cons (.tree (by simp) hitems (by simp)) .nil)
  have hhead : M.Heads (mapScope ref l) _ map := heads_of_word hsigil hmap (by decide) rfl
  refine ⟨k, (unbounded_function hhead.type (hhead.headValue hown) hhead.method _).trans
    (.of_eq ?_)⟩
  exact Action.bind_done (arguments_of_collected hargs)

/-- An empty list is told from the others. -/
theorem eval_choice {cond : Token} (hcond : cond.IsWord "if") {test : Node}
    (htest : (Sketch.form ["=", .form ["count", "l"], "0"]).Reads test)
    (hl : l.items? = some items) (yes no : Node) :
    Same (M.unbounded.eval (mapScope ref l) (.form [.leaf cond, test, yes, no]) s)
      (M.unbounded.eval (mapScope ref l) (if items.isEmpty then yes else no) s) := by
  have hhead : M.Heads (mapScope ref l) _ cond := heads_of_word hsigil hcond (by decide) rfl
  refine (unbounded_conditional hhead hs.conditional test yes no).trans (.of_eq ?_)
  rw [Action.bind_done (eval_isEmpty hsigil hs htest hl)]
  rfl

omit hsigil hs in
/-- The other calls, after a first one with the result `v`, and the list of all results. -/
theorem rendered_others {own : Nat} {g : Function} (hg : s.functions[own]? = some g)
    (hbody : g.body = .builtin .cons) {others : Node} (htree : ∀ t, others ≠ .leaf t)
    {scope : Scope} {xs : List Value} {t : Store σ}
    (hothers : Rendered (calls M.unbounded ref xs t) (M.unbounded.eval scope others s)) (v : Value)
    (q : Position) :
    Rendered ((do
        match ← calls M.unbounded ref xs with
        | .error f => return Except.error f
        | .ok vs =>
          Action.modify (Store.made (v :: vs))
          return .ok (v :: vs)) t)
      (withArguments M.unbounded scope [others] (fun vs => do
        let w ← M.unbounded.call own (v :: vs)
        return w.located q) s) := by
  rw [withArguments_tree htree]
  refine Rendered.bind hothers (fun vs u k hu => ?_) fun e u p => .fault p
  obtain ⟨g', hg', hsame⟩ := (grows_eval hu).bodies own g hg
  obtain ⟨k', hk⟩ := Action.stamped_list (v :: vs) u
  have hlist : M.unbounded.call own [v, .list k vs] u =
      .done (.list k' (v :: vs)) (u.made (v :: vs)) :=
    (unbounded_call_builtin hg' (hsame.trans hbody) rfl rfl).trans hk
  change Rendered _ ((do
    let w ← M.unbounded.call own [v, .list k vs]
    return w.located q : Action σ Value) u)
  rw [Action.bind_done hlist]
  exact .list k'

/-- The first call, the others, and the list of all results. -/
theorem rendered_cons {cons : Token} (hcons : cons.IsWord "cons") {first others : Node}
    (hfirst : (Sketch.form ["f", .form ["get", "l", "0"]]).Reads first)
    (htree : ∀ t, others ≠ .leaf t) {k : Nat} {x : Value} {xs : List Value}
    (hx : x.isError = false)
    (hothers : ∀ v t, M.unbounded.call ref [x.orNil] s = .done v t → v.isError = false →
      Rendered (calls M.unbounded ref xs (t.made xs))
        (M.unbounded.eval (mapScope ref (.list k (x :: xs))) others t)) :
    Rendered (calls M.unbounded ref (x :: xs) s)
      (M.unbounded.eval (mapScope ref (.list k (x :: xs)))
        (.form [.leaf cons, first, others]) s) := by
  obtain ⟨own, g, hfind, hg, hbody⟩ := Store.body?_eq_some.mp (hs.builtins .cons (by decide))
  have hhead : M.Heads (mapScope ref (.list k (x :: xs))) _ cons :=
    heads_of_word hsigil hcons (by decide) rfl
  have htree' : ∀ t, first ≠ .leaf t := by
    obtain ⟨ns, rfl, -⟩ := hfirst
    simp
  have heval := unbounded_function hhead.type (hhead.headValue hfind) hhead.method [first, others]
  change Same _ (withArguments M.unbounded _ [first, others] _ s) at heval
  rw [withArguments_tree htree'] at heval
  refine Rendered.same ?_ (heval.trans (Action.same_bind (eval_firstCall hsigil hs hfirst hx)
    fun _ _ _ => .refl _)).symm
  rw [Action.bind_assoc, calls]
  refine Rendered.bind_same fun v t hcall => ?_
  rcases v.fault_or_not with ⟨f, rfl⟩ | hv
  · exact .fault _
  have hcalls : calls M.unbounded ref (x :: xs) s = _ := calls_cons hcall hv
  rw [calls, Action.bind_done hcall] at hcalls
  rw [hcalls]
  obtain ⟨g', hg', hsame⟩ := (grows_call hcall).bodies own g hg
  have hrest := rendered_others hg' (hsame.trans hbody) htree (hothers v t hcall hv) v
    (Node.form [.leaf cons, first, others]).position
  cases v with
  | error f => simp [Value.isError] at hv
  | _ => exact hrest

end Body

/-- A call of `map` evaluates its one tree. -/
theorem call_map {M : Machine σ} {n : Node} {s : Store σ} (hs : MapReady [n] s) {own : Nat}
    (hown : s.find? "map" = some (.function own)) (ref : Nat) (l : Value) :
    Same (M.unbounded.call own [.function ref, l] s) (M.unbounded.eval (mapScope ref l) n s) := by
  obtain ⟨ref', f, hfind, hf, hbody⟩ := Store.body?_eq_some.mp hs.map
  obtain rfl : ref' = own := by simpa [hown, eq_comm] using hfind
  refine (unbounded_closure hf hbody rfl rfl).trans (.of_eq ?_)
  rw [body_orNil, body_singleton]
  rfl

/-! ### The whole run -/

variable {M : Machine σ}

theorem rendered_map (hsigil : M.effectiveSigil = defaultSigil) {trees : List Node}
    (htrees : Sketch.ReadsAll mapTrees trees) (ref own : Nat) :
    ∀ {items : List Value} {l : Value} {s : Store σ}, l.items? = some items →
      (∀ x ∈ items, x.isError = false) → MapReady trees s →
      s.find? "map" = some (.function own) →
      (∀ rest t, Called M.unbounded ref items s rest t →
        ∀ name ∈ mapNames, t.find? name = s.find? name) →
      Rendered (calls M.unbounded ref items s) (M.unbounded.call own [.function ref, l] s) := by
  obtain ⟨_, _, rfl, ⟨_, rfl, _, _, rfl, ⟨cond, rfl, hcond⟩, test, _, rfl, htest, none, _, rfl,
    hnone, more, _, rfl, ⟨_, rfl, _, _, rfl, ⟨cons, rfl, hcons⟩, first, _, rfl, hfirst, others, _,
    rfl, hothers, rfl⟩, rfl⟩, rfl⟩ := htrees
  intro items
  induction items with
  | nil =>
    intro l s hl _ hs hown _
    refine Rendered.same ?_ (call_map hs hown ref l).symm
    refine Rendered.same ?_ (eval_choice hsigil hs hcond htest hl none _).symm
    rw [List.isEmpty_nil, if_pos rfl, eval_noItems hsigil hs hnone]
    exact .list 0
  | cons x xs ih =>
    intro l s hl hplain hs hown hkeep
    refine Rendered.same ?_ (call_map hs hown ref l).symm
    refine Rendered.same ?_ (eval_choice hsigil hs hcond htest hl none _).symm
    rw [List.isEmpty_cons, if_neg Bool.false_ne_true]
    obtain ⟨k, rfl⟩ : ∃ k, l = .list k (x :: xs) := by simpa using Value.items?_eq_some.mp hl
    rw [List.forall_mem_cons] at hplain
    have htree : ∀ t, others ≠ .leaf t := by
      obtain ⟨ns, rfl, -⟩ := hothers
      simp
    refine rendered_cons hsigil hs hcons hfirst htree hplain.1 fun v t hcall hv => ?_
    -- the names are still bound to the same after the call
    have hnext := hkeep xs (t.made xs) (.next hcall hv .here)
    have ht : MapReady _ t := hs.grows (grows_call hcall) hnext
    have hown' : t.find? "map" = some (.function own) :=
      (hnext _ (by simp [mapNames])).trans hown
    obtain ⟨k', hmore⟩ := eval_moreCalls hsigil ht hothers hl hown'
    refine Rendered.same (Rendered.located ?_ _) hmore.symm
    refine ih rfl hplain.2 (ht.grows (t.grows_made xs) fun _ _ => rfl) hown'
      fun rest u hu name hname => ?_
    exact (hkeep rest u (.next hcall hv hu) name hname).trans (hnext name hname).symm

/-- **`map` calls a function on each item in order.** Under the default sigil, in every scope and
store where `map` is the function of the prelude, and no local name, and the names in its body are
the special form and the built-in functions they should be: if the operands give a function and a
list without faults, or `nil`, and these names are bound to the same before the first call and after
each call that is followed by another, then `(map f l)` ends as the calls on the items in order do:
with the list of their results, or with the first fault among them, which may get a position. If
each call comes to an end, so does this, and then there are as many results as items. The marker
that the prelude was read with must not make keywords of the words of the definition. -/
theorem map_calls_in_order (M : Machine σ) (hsigil : M.effectiveSigil = defaultSigil) {m : Text}
    (hm : PreludeSpells m "map") (scope : Scope) (s t : Store σ) (hdef : PreludeDefines m s "map")
    (hif : s.expander? "if" = some (.special .conditional))
    (hbuiltins : ∀ b ∈ mapBuiltins, s.body? b.name = some (.builtin b))
    (hlocal : scope.find? "map" = none) (head : Token) (htype : head.type = .identifier)
    (htext : head.text = "map") (nf nl : Node) (ref : Nat) (l : Value) (items : List Value)
    (hargs : Collected M.unbounded scope [nf, nl] s [.function ref, l] t)
    (hl : l.items? = some items) (hitems : ∀ x ∈ items, x.isError = false)
    (hkeep : ∀ rest u, Called M.unbounded ref items t rest u →
      ∀ name ∈ mapNames, u.find? name = s.find? name) :
    Rendered (calls M.unbounded ref items t)
        (M.unbounded.eval scope (.form [.leaf head, nf, nl]) s) ∧
      ((∀ x rest u, Called M.unbounded ref items t (x :: rest) u →
          ∃ v w, M.unbounded.call ref [x.orNil] u = .done v w) →
        ∃ r u, calls M.unbounded ref items t = .done r u) ∧
      ∀ vs u, calls M.unbounded ref items t = .done (.ok vs) u → vs.length = items.length := by
  obtain ⟨trees, htrees, hmap⟩ :=
    Definition.Holds.readsAll (hdef _ map_mem rfl) (hm _ map_mem rfl)
  obtain ⟨own, -, hown, -⟩ := Store.body?_eq_some.mp hmap
  have hcollected := arguments_of_collected hargs
  have hstart := hkeep items t .here
  have ht : MapReady trees t :=
    MapReady.grows ⟨hmap, hif, hbuiltins⟩ (grows_arguments hcollected) hstart
  have hrun := rendered_map hsigil htrees ref own hl hitems ht
    ((hstart _ (by simp [mapNames])).trans hown) fun rest u hu name hname =>
      (hkeep rest u hu name hname).trans (hstart name hname).symm
  have hhead := heads_of_identifier hsigil (by decide) htype htext hlocal
  have heval := unbounded_function hhead.type (hhead.headValue hown) hhead.method [nf, nl]
  rw [Action.bind_done hcollected] at heval
  exact ⟨(hrun.located _).same heval.symm, calls_end, fun _ _ => length_of_calls⟩

end Machine

namespace Session

open Machine (calls Called)

/-- In a session with the prelude, `(map identity (list :a :b))` is the list of `:a` and `:b`. -/
theorem map_calls_in_order_of_two :
    let c : Config := .default
    let M := (start c .none ()).machine
    let word (text : Text) (column : Nat) : Token :=
      ⟨.identifier, ⟨"user", 1, column⟩, text, .undefined text⟩
    let keyword (text : Text) (column : Nat) : Node :=
      .leaf ⟨.keyword, ⟨"user", 1, column⟩, text, .keyword text⟩
    ∃ t u k, (start c .none ()).loadPrelude = some (none, { start c .none () with store := t }) ∧
      M.unbounded.eval [] (.form [.leaf (word "map" 2), .leaf (word "identity" 6),
        .form [.leaf (word "list" 16), keyword ":a" 21, keyword ":b" 24]]) t =
        .done (.list k [.keyword ":a", .keyword ":b"]) u ∧ u.bindings = t.bindings := by
  intro c M word keyword
  obtain ⟨t, hload, hstandard, hdefs⟩ := loadPrelude_default
  obtain ⟨ref, f, hfind, hf, hbody⟩ := Store.body?_eq_some.mp (hstandard.builtins .identity)
  let items : List Value := [.keyword ":a", .keyword ":b"]
  have hitem (text : Text) : M.unbounded.call ref [.keyword text] t = .done (.keyword text) t :=
    Machine.unbounded_call_builtin (v := .keyword text) hf hbody rfl rfl
  have hlist : M.unbounded.eval []
      (.form [.leaf (word "list" 16), keyword ":a" 21, keyword ":b" 24]) t =
        .done (.list 0 items) t :=
    Machine.unbounded_builtin (b := .list)
      (Machine.heads_of_identifier (by decide) (by decide) rfl rfl rfl) (hstandard.builtins .list)
      (.cons (.literal (by simp) (by simp)) (.cons (.literal (by simp) (by simp)) .nil)) rfl rfl
  have hargs : Machine.Collected M.unbounded [] _ t [.function ref, .list 0 items] t :=
    .cons (.ofModule (t := word "identity" 6) rfl rfl hfind)
      (.cons (.tree (by simp) hlist (by simp)) .nil)
  have hlast : calls M.unbounded ref [.keyword ":b"] t = .done (.ok [.keyword ":b"]) t := by
    rw [Machine.calls_cons (hitem ":b") rfl]
    rfl
  have hcalls : calls M.unbounded ref items t = .done (.ok items) t := by
    rw [Machine.calls_cons (hitem ":a") rfl]
    exact Action.bind_done hlast
  have hsame {rest : List Value} {u : Store Unit}
      (h : Called M.unbounded ref [.keyword ":a", .keyword ":b"] t rest u) : u = t := by
    cases h with
    | here => rfl
    | next hcall hv h =>
      obtain ⟨rfl, rfl⟩ := Outcome.done.inj ((hitem ":a").symm.trans hcall)
      cases h with
      | here => rfl
      | next hcall hv h =>
        obtain ⟨rfl, rfl⟩ := Outcome.done.inj ((hitem ":b").symm.trans hcall)
        cases h
        rfl
  obtain ⟨hrendered, -, -⟩ := Machine.map_calls_in_order M (by decide) (m := c.marker)
    (by decide +kernel) [] t t (hdefs _) (hstandard.specials .conditional)
    (fun b _ => hstandard.builtins b) rfl (word "map" 2) rfl rfl _ _ ref _ items hargs rfl
    (by decide) fun rest u h name _ => by rw [hsame h]
  rw [hcalls] at hrendered
  generalize heval : M.unbounded.eval [] _ t = o at hrendered
  cases hrendered with
  | list k => exact ⟨t, t, k, hload, heval, rfl⟩

/-- With `li` in front of keywords, which the check lets pass and the prelude is loaded with, the
head of `(list)` in the body of `map` is a keyword: `(map inc nil)` has a fault as its value. -/
theorem map_stopped_by_keyword :
    let c : Config := ⟨"user", ".", "li", true⟩
    c.IsValid ∧ ∃ f, answers c "(map inc nil)" = some [.error f] := by
  intro c
  have hc : c.IsValid := by decide
  have hfault : isFault (answers c "(map inc nil)") = true := by decide +kernel
  exact ⟨hc, isFault_iff.mp hfault⟩

end Session

end LittleLisp
