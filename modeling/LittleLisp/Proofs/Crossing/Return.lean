/-
# There and back

A value that is converted to a host type and back again is what it was, as far as the type can hold
it. A number that is passed as an integer loses what is behind its point and is reduced to the one
integer of the type that is congruent to it; strings, truth values and values that are passed as
such come back unchanged; and a list comes back as a list of as many items, each of them after
its own journey, with the empty list for `nil`.

What an integer type holds fits into 64 bits, but not every integer of 64 bits is a number. Those
that come back are: they are narrow enough, or else they are the integer part of the number that
was passed.

Key definitions: `IntType.Holds`, `IntType.Carries`, `IntType.Narrows`, `HostValue.Suits`,
`HostValue.Returns`.
Key theorems: `IntType.wrap_eq_iff`, `IntType.exact_wrap`, `IntType.narrows_ofNumber`,
`HostValue.conversion_round_trip`.
-/
import LittleLisp.Proofs.Crossing.Admission
import LittleLisp.Proofs.Numbers

namespace LittleLisp

/-! ### Integers -/

namespace IntType

open Number

variable {t : IntType} {z n : Int} {x : Float}

/-- The integers of a type. -/
def Holds (t : IntType) (n : Int) : Prop :=
  if t.isSigned then -2 ^ (t.bits - 1) ≤ n ∧ n < 2 ^ (t.bits - 1) else 0 ≤ n ∧ n < 2 ^ t.bits

/-- The integers that are narrowed to a type as they are: those of 64 bits, signed or unsigned. -/
def Carries (t : IntType) (z : Int) : Prop :=
  if t.isSigned then -2 ^ 63 ≤ z ∧ z < 2 ^ 63 else 0 ≤ z ∧ z < 2 ^ 64

theorem bits_cases (t : IntType) : t.bits = 64 ∨ t.bits ≤ 32 ∧ 0 < t.bits := by
  cases t with
  | int => exact Or.inl rfl
  | uint => exact Or.inl rfl
  | signed w => cases w <;> decide
  | unsigned w => cases w <;> decide

theorem size_eq (t : IntType) : t.size = 2 * 2 ^ (t.bits - 1) := by
  have hpos : 0 < t.bits := by
    rcases t.bits_cases with h | h <;> omega
  change 2 ^ t.bits = _
  rw [← Nat.pow_succ', Nat.succ_eq_add_one, Nat.sub_add_cancel hpos]

/-- Wrapping gives the only integer of the type that is congruent modulo its size. -/
theorem wrap_eq_iff : t.wrap z = n ↔ t.Holds n ∧ n ≡ z [ZMOD 2 ^ t.bits] := by
  have hsize : (t.size : Int) = 2 ^ t.bits := by
    change ((2 ^ t.bits : Nat) : Int) = _
    push_cast
    rfl
  have hhalf : (t.size : Int) = 2 * 2 ^ (t.bits - 1) := by
    rw [size_eq]
    push_cast
    rfl
  have hpos : 0 < t.size := Nat.two_pow_pos _
  rw [wrap, Holds, ← hsize, Int.modEq_comm, Int.modEq_iff_dvd]
  by_cases hs : t.isSigned = true
  · rw [if_pos hs, if_pos hs, Int.bmod_eq_iff hpos, and_assoc]
    have hlow : -((t.size : Int) / 2) = -2 ^ (t.bits - 1) := by omega
    have hhigh : ((t.size : Int) + 1) / 2 = 2 ^ (t.bits - 1) := by omega
    rw [hlow, hhigh]
  · rw [if_neg hs, if_neg hs, Int.emod_eq_iff (by omega), and_assoc, Int.natAbs_natCast]

theorem carrier_eq (h : t.Carries z) : t.carrier z = z := by
  unfold Carries at h
  unfold carrier leastWord
  by_cases hs : t.isSigned = true
  · rw [if_pos hs] at h
    rw [if_pos hs, if_pos (by omega)]
  · rw [if_neg hs] at h
    rw [if_neg hs, if_pos (by omega)]

/-- The integers of a type have at most as many bits as the type. -/
theorem Holds.natAbs_le (h : t.Holds n) : n.natAbs ≤ 2 ^ t.bits := by
  have hhalf := t.size_eq
  have hsize : t.size = 2 ^ t.bits := rfl
  have hcast : ((2 ^ (t.bits - 1) : Nat) : Int) = 2 ^ (t.bits - 1) := by push_cast; rfl
  have hcast' : ((2 ^ t.bits : Nat) : Int) = 2 ^ t.bits := by push_cast; rfl
  rw [Holds, ← hcast, ← hcast'] at h
  split_ifs at h <;> omega

/-- What a number is narrowed to is a number again. -/
theorem exact_wrap (hz : toInt x = some z) (h : t.Carries z) :
    Exact (t.wrap z).natAbs ∧ (t.wrap z).natAbs.log2 < 1024 := by
  obtain ⟨hholds, -⟩ := wrap_eq_iff.mp (rfl : t.wrap z = _)
  have hle := hholds.natAbs_le
  have hlog (k : Nat) (hk : t.bits < k) : (t.wrap z).natAbs.log2 ≤ k := by
    have hlt : (t.wrap z).natAbs < 2 ^ (k + 1) :=
      hle.trans_lt (Nat.pow_lt_pow_right one_lt_two (by omega))
    by_cases hzero : (t.wrap z).natAbs = 0
    · rw [hzero, Nat.log2_zero]
      omega
    · exact Nat.le_of_lt_succ ((Nat.log2_lt hzero).mpr hlt)
  rcases t.bits_cases with hbits | ⟨hbits, -⟩
  · -- All 64 bits are kept, and the integer part of a number is exact.
    have hsame : t.wrap z = z := wrap_eq_iff.mpr ⟨by rwa [Holds, hbits], Int.ModEq.refl z⟩
    have hwide := hlog 65 (by omega)
    rw [hsame] at hwide ⊢
    exact ⟨exact_of_toInt hz, by omega⟩
  · have hnarrow := hlog 33 (by omega)
    have hlt : (t.wrap z).natAbs < 2 ^ 53 :=
      hle.trans_lt (Nat.pow_lt_pow_right one_lt_two (by omega))
    exact ⟨exact_of_lt hlt, by omega⟩

/-- What comes back for a number that is passed as an integer: the one integer of the type that is
congruent to the number without what is behind its point. A whole number of the type is not
changed, but for the sign of a zero. -/
def Narrows (t : IntType) (x y : Float) : Prop :=
  ∃ q n, value? x = some q ∧ value? y = some ((n : Int) : ℚ) ∧
    (∀ m : Int, t.Holds m ∧ m ≡ truncated q [ZMOD 2 ^ t.bits] ↔ m = n) ∧
    ∀ m : Int, q = m → t.Holds m → y = if m = 0 then 0 else x

theorem narrows_ofNumber (hz : toInt x = some z) (h : t.Carries z) :
    t.Narrows x (ofInt (t.ofNumber x)) := by
  obtain ⟨q, hq, rfl⟩ : ∃ q, value? x = some q ∧ truncated q = z := by
    rw [toInt_eq, Option.map_eq_some_iff] at hz
    exact hz
  have hn : t.ofNumber x = t.wrap (truncated q) := by
    rw [ofNumber, hz]
    dsimp only
    rw [carrier_eq h]
  obtain ⟨hexact, hlog⟩ := exact_wrap hz h
  refine ⟨q, t.wrap (truncated q), hq, by rw [hn, value?_ofInt hexact hlog], fun m => ?_, ?_⟩
  · rw [eq_comm, wrap_eq_iff]
  · rintro m rfl hm
    have hwrap : t.wrap m = m := wrap_eq_iff.mpr ⟨hm, Int.ModEq.refl m⟩
    rw [hn, truncated_intCast, hwrap]
    by_cases hzero : m = 0
    · rw [if_pos hzero, hzero]
      decide +kernel
    · rw [if_neg hzero, ofInt_of_value? hq hzero]

end IntType

/-! ### Values -/

namespace HostValue

variable {H : HostTypes} {L : Legend} {t : HostType} {v : Value}

/-- The values that a type is meant for: numbers whose integer part has 64 bits for an integer
type, strings, truth values, anything for the type of all values, and lists of such values, or
`nil`, for a slice. -/
def Suits : HostType → Value → Prop
  | .integer i, .number x => ∃ q, Number.value? x = some q ∧ i.Carries (Number.truncated q)
  | .string _, .string _ => True
  | .bool, .bool _ => True
  | .value, _ => True
  | .slice _, .nil => True
  | .slice elem, .list _ items => ∀ v ∈ items, Suits elem v
  | _, _ => False

/-- What comes back for a value that is passed as a type. -/
def Returns : HostType → Value → Value → Prop
  | .integer i, .number x, w => ∃ y, w = .number y ∧ i.Narrows x y
  | .string _, .string s, w => w = .string s
  | .bool, .bool b, w => w = .bool b
  | .value, v, w => w = v.orNil
  | .slice _, .nil, w => w = .list 0 []
  | .slice elem, .list _ items, w =>
    ∃ items', w = .list 0 items' ∧ List.Forall₂ (Returns elem) items items'
  | _, _, _ => False

/-- A number suits an integer type if its integer part does. -/
theorem suits_number_iff {i : IntType} {x : Float} :
    Suits (.integer i) (.number x) ↔ ∃ z, Number.toInt x = some z ∧ i.Carries z := by
  rw [Number.toInt_eq, Suits]
  constructor
  · rintro ⟨q, hq, hcarries⟩
    exact ⟨_, by rw [hq, Option.map_some], hcarries⟩
  · rintro ⟨z, hz, hcarries⟩
    obtain ⟨q, hq, rfl⟩ := Option.map_eq_some_iff.mp hz
    exact ⟨q, hq, hcarries⟩

/-- The items of a list come back one by one. -/
theorem items_round_trip {elem : HostType}
    (h : ∀ v, Suits elem v → ∃ x, ofValue H L v elem = .ok x ∧ Returns elem v (toValue H elem x)) :
    ∀ {items : List Value}, (∀ v ∈ items, Suits elem v) →
      ∃ xs, ofItems H L items elem = .ok xs ∧
        List.Forall₂ (Returns elem) items (toValues H elem xs)
  | [], _ => ⟨[], rfl, .nil⟩
  | v :: vs, hsuits => by
    obtain ⟨x, hx, hreturns⟩ := h v (hsuits v List.mem_cons_self)
    obtain ⟨xs, hxs, hrest⟩ := items_round_trip h fun w hw => hsuits w (List.mem_cons_of_mem v hw)
    exact ⟨x :: xs, by rw [ofItems, hx, hxs]; rfl, .cons hreturns hrest⟩

/-- **There and back.** A value that suits a type is converted to it, and comes back from there as
far as the type can hold it. -/
theorem conversion_round_trip (H : HostTypes) (L : Legend) {t : HostType} {v : Value}
    (h : Suits t v) : ∃ x, ofValue H L v t = .ok x ∧ Returns t v (toValue H t x) := by
  induction t generalizing v with
  | integer i =>
    cases v with
    | atom a =>
      cases a with
      | number x =>
        obtain ⟨z, hz, hcarries⟩ := suits_number_iff.mp h
        exact ⟨.integer (i.ofNumber x), rfl, _, rfl, IntType.narrows_ofNumber hz hcarries⟩
      | _ => exact absurd h nofun
    | _ => exact absurd h nofun
  | string name =>
    cases v with
    | atom a =>
      cases a with
      | string s => exact ⟨.string s, rfl, rfl⟩
      | _ => exact absurd h nofun
    | _ => exact absurd h nofun
  | bool =>
    cases v with
    | atom a =>
      cases a with
      | bool b => exact ⟨.bool b, rfl, rfl⟩
      | _ => exact absurd h nofun
    | _ => exact absurd h nofun
  | interface i =>
    cases i with
    | value => exact ⟨.value v, ofValue_value v, rfl⟩
    | _ => exact absurd h nofun
  | slice elem ih =>
    cases v with
    | atom a =>
      cases a with
      | nil => exact ⟨.nothing, rfl, rfl⟩
      | _ => exact absurd h nofun
    | list s items =>
      obtain ⟨xs, hxs, hreturns⟩ := items_round_trip (fun _ => ih) h
      exact ⟨.list xs, by rw [ofValue_slice, hxs]; rfl, _, rfl, hreturns⟩
    | _ => exact absurd h nofun
  | _ => exact absurd h nofun

/-- A list of `nil` and two numbers makes its way through slices of slices of bytes. -/
theorem conversion_round_trip_of_bytes :
    let t : HostType := .slice (.slice (.integer (.signed .w8)))
    let v : Value := .list 2 [.nil, .list 1 [.number 200.5, .number (-0)]]
    let L : Legend := ⟨fun _ => [], fun _ => [], fun _ => .ok []⟩
    Suits t v ∧ ∃ x, ofValue Host.none.types L v t = .ok x ∧
      Returns t v (toValue Host.none.types t x) := by
  intro t v L
  have hnumber {x : Float} {z : Int} (hz : Number.toInt x = some z) (h : -2 ^ 63 ≤ z ∧ z < 2 ^ 63) :
      Suits (.integer (.signed .w8)) (.number x) := suits_number_iff.mpr ⟨z, hz, h⟩
  have hnumbers : ∀ v ∈ [Value.number 200.5, .number (-0)],
      Suits (.integer (.signed .w8)) v :=
    List.forall_mem_cons.mpr ⟨hnumber (z := 200) (by decide +kernel) (by decide),
      List.forall_mem_singleton.mpr (hnumber (z := 0) (by decide +kernel) (by decide))⟩
  have hsuits : Suits t v :=
    List.forall_mem_cons.mpr ⟨trivial, List.forall_mem_singleton.mpr hnumbers⟩
  exact ⟨hsuits, conversion_round_trip _ _ hsuits⟩

end HostValue

end LittleLisp
