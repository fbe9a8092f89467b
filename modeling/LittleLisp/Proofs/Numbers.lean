/-
# Exact values

A number stands for a fraction, and a whole number is one that stands for an integer. Integers
whose bits fit the significand of a float are converted to one without loss, and a whole number is
the float of the integer it stands for, unless it is the negative zero.

Floats are known by their bits only, so all of this is about bits: taking the bits of a float apart
and putting them together again gives the same bits, and a finite number has the sign, the
exponent and the fraction that are found there.

Key definitions: `Number.Fields`, `Number.Exact`, `Number.value?`, `Number.truncated`.
Key theorems: `Number.pack_unpack`, `Number.fields_ofInt`, `Number.toInt_eq`,
`Number.exact_of_toInt`, `Number.value?_ofInt`, `Number.ofInt_of_value?`.
-/
import Mathlib
import LittleLisp.Proofs.Prelude.Mapping

namespace LittleLisp

namespace Number

/-! ### Bits -/

section Bits

open Float.Model Float.Model.UnpackedFloat

theorem toBitVec_ofBitVec : ∀ s : BitVec 1, (Sign.ofBitVec s).toBitVec = s := by decide

theorem packComponents_unpack (v : BitVec Format.binary64.numBits) :
    packComponents Format.binary64 (Sign.ofBitVec (unpackSign v)) (unpackExponent v)
      (unpackMantissa v) = v := by
  ext i hi
  have hlast : i < 64 := hi
  simp only [packComponents, toBitVec_ofBitVec, unpackSign, unpackExponent, unpackMantissa,
    BitVec.extractLsb, BitVec.getElem_append, BitVec.getElem_cast, BitVec.getElem_extractLsb']
  rw [← BitVec.getLsbD_eq_getElem hi]
  split_ifs with hm he <;> congr 1 <;> omega

theorem pack_subnormal {s : Sign} {m : BitVec 52} {e : Int} {hm : 0 < m.toNat}
    (he : e = -1074) :
    UnpackedFloat.pack Format.binary64 (.finite s m.toNat e hm) =
      packComponents Format.binary64 s 0#_ m := by
  have hlog : m.toNat.log2 < 52 := (Nat.log2_lt hm.ne').mpr m.isLt
  have hbiased : (e + Format.binary64.exponentBias + (52 : Nat)).toNat = 1 := by
    rw [he]; rfl
  simp only [UnpackedFloat.pack, hbiased]
  rw [if_neg (by decide), if_neg (by simp [Float.Model.Format.mantissaBits]; omega),
    BitVec.ofNat_toNat, BitVec.setWidth_eq]

theorem pack_normal {s : Sign} {m : BitVec 52} {e : BitVec 11} {hm : 0 < (1#1 ++ m).toNat}
    (he : e ≠ -1#_) :
    UnpackedFloat.pack Format.binary64 (.finite s (1#1 ++ m).toNat (e.toNat - 1075) hm) =
      packComponents Format.binary64 s e m := by
  have hbiased : ((e.toNat : Int) - 1075 + Format.binary64.exponentBias + (52 : Nat)).toNat =
      e.toNat := by
    have hbias : Format.binary64.exponentBias = 1023 := rfl
    omega
  have hne : e.toNat ≠ 2047 := fun h => he (BitVec.eq_of_toNat_eq h)
  have hlt := e.isLt
  simp only [UnpackedFloat.pack, hbiased]
  have hlow : BitVec.ofNat 52 (1#1 ++ m).toNat = m := by
    have hsum : (1#1 ++ m).toNat = 2 ^ 52 + m.toNat := by
      rw [BitVec.toNat_append, ← Nat.shiftLeft_add_eq_or_of_lt m.isLt]
      rfl
    apply BitVec.eq_of_toNat_eq
    rw [hsum, BitVec.toNat_ofNat, Nat.add_mod_left, Nat.mod_eq_of_lt m.isLt]
  rw [if_neg (by omega), if_pos (c := _ = Format.binary64.mantissaBits)
    (log2_significand m), hlow, BitVec.ofNat_toNat, BitVec.setWidth_eq]

/-- A float is as good as its bits. -/
theorem pack_unpack {v : BitVec Format.binary64.numBits}
    (hv : Format.binary64.Valid v) :
    UnpackedFloat.pack Format.binary64 (UnpackedFloat.unpack _ v) = v := by
  have hcomp := packComponents_unpack v
  have hneg : (0#11) ≠ -1#11 := by decide
  unfold UnpackedFloat.unpack
  by_cases hone : unpackExponent v = -1#_
  · by_cases hm : unpackMantissa v = 0#_
    · simp only [hone, hm, if_true]
      rw [hone, hm] at hcomp
      exact hcomp
    · simp only [hone, hm, if_true, if_false]
      exact (hv.eq_packedNaN hone hm).symm
  · by_cases hzero : unpackExponent v = 0#_
    · by_cases hm : unpackMantissa v = 0#_
      · simp only [hzero, hm, hneg, if_true, if_false]
        rw [hzero, hm] at hcomp
        exact hcomp
      · simp only [hzero, hm, hneg, if_true, if_false]
        rw [hzero] at hcomp
        exact (pack_subnormal rfl).trans hcomp
    · simp only [hone, hzero, if_false]
      exact (pack_normal hone).trans hcomp

theorem toBits_ofBits {b : UInt64} (h : b.toNat / 2 ^ 52 % 2048 ≠ 2047) :
    (Float.ofBits b).toBits = b := by
  have hexp := toNat_exponent b
  have hone : @unpackExponent Format.binary64 b.toBitVec ≠ -1#_ := fun he => by
    have htop := congrArg BitVec.toNat he
    simp at htop
    omega
  have hround := pack_unpack (v := b.toBitVec) ⟨fun he => absurd he hone⟩
  exact congrArg UInt64.ofBitVec hround

end Bits

/-- The bits of a finite number: its sign, its biased exponent, and its fraction. -/
structure Fields (x : Float) (neg : Bool) (exponent fraction : Nat) : Prop where
  exponent_lt : exponent < 2047
  fraction_lt : fraction < 2 ^ 52
  bits : x.toBits.toNat = (if neg then 2 ^ 63 else 0) + exponent * 2 ^ 52 + fraction

/-- Numbers with the same fields are the same. -/
theorem Fields.unique {x y : Float} {neg : Bool} {exponent fraction : Nat}
    (hx : Fields x neg exponent fraction) (hy : Fields y neg exponent fraction) : x = y := by
  have hbits : x.toBits = y.toBits := UInt64.toNat_inj.mp (hx.bits.trans hy.bits.symm)
  obtain ⟨⟨_, _⟩⟩ := x
  obtain ⟨⟨_, _⟩⟩ := y
  cases hbits
  rfl

theorem Fields.parts_eq {x : Float} {neg : Bool} {exponent fraction : Nat}
    (h : Fields x neg exponent fraction) :
    parts x = if exponent = 0 then .finite neg fraction (-1074)
      else .finite neg (2 ^ 52 + fraction) ((exponent : Int) - 1075) := by
  obtain ⟨hexp, hfrac, hbits⟩ := h
  have hneg : decide (Nat.pow 2 63 ≤ x.toBits.toNat) = neg := by
    rw [hbits]
    cases neg <;> simp <;> omega
  have hexponent : x.toBits.toNat / Nat.pow 2 52 % 2048 = exponent := by
    rw [hbits]
    cases neg <;> simp <;> omega
  have hfraction : x.toBits.toNat % Nat.pow 2 52 = fraction := by
    rw [hbits]
    cases neg <;> simp <;> omega
  have hpow : Nat.pow 2 52 = 2 ^ 52 := rfl
  unfold parts
  simp only [hneg, hexponent, hfraction]
  rw [if_neg (by omega), hpow]

/-- A finite number has fields. -/
theorem exists_fields {x : Float} {neg : Bool} {m : Nat} {e : Int} (h : parts x = .finite neg m e) :
    ∃ exponent fraction, Fields x neg exponent fraction := by
  have hpow : Nat.pow 2 52 = 2 ^ 52 := rfl
  have hpow' : Nat.pow 2 63 = 2 ^ 63 := rfl
  have hlt := x.toBits.toNat_lt
  have hexp : x.toBits.toNat / 2 ^ 52 % 2048 ≠ 2047 := by
    intro hall
    unfold parts at h
    simp only [hpow, hall, if_true] at h
    split at h <;> cases h
  have hneg : neg = decide (2 ^ 63 ≤ x.toBits.toNat) := by
    unfold parts at h
    simp only [hpow, hpow', if_neg hexp] at h
    split at h <;> cases h <;> rfl
  refine ⟨x.toBits.toNat / 2 ^ 52 % 2048, x.toBits.toNat % 2 ^ 52, by omega, by omega, ?_⟩
  subst hneg
  by_cases hs : 2 ^ 63 ≤ x.toBits.toNat <;>
    simp only [hs, decide_true, decide_false, if_true, Bool.false_eq_true, if_false] <;> omega

/-! ### Integers -/

theorem scaled_eq (n d : Nat) (e : Int) :
    scaled n d e = (n * 2 ^ e.toNat, d * 2 ^ (-e).toNat) := by
  cases e <;> simp [scaled]

theorem roundDiv_mul (q : Nat) {d : Nat} (hd : 0 < d) : roundDiv (q * d) d = q := by
  simp [roundDiv, Nat.mul_div_cancel q hd, hd]

theorem log2_mul_pow {n : Nat} (hn : n ≠ 0) (a : Nat) : (n * 2 ^ a).log2 = n.log2 + a := by
  have hpos : 0 < 2 ^ a := Nat.two_pow_pos a
  have hlow := Nat.log2_self_le hn
  have hhigh := Nat.lt_log2_self (n := n)
  refine (Nat.log2_eq_iff (Nat.mul_ne_zero hn hpos.ne')).mpr ⟨?_, ?_⟩
  · rw [Nat.pow_add]
    exact Nat.mul_le_mul_right _ hlow
  · rw [show n.log2 + a + 1 = n.log2 + 1 + a by omega, Nat.pow_add]
    exact Nat.mul_lt_mul_of_pos_right hhigh hpos

/-- What is scaled to a significand of 53 bits has this many bits itself. -/
theorem log2_of_significand {n m a b : Nat} (hn : n ≠ 0) (hlow : 2 ^ 52 ≤ m) (hhigh : m < 2 ^ 53)
    (h : n * 2 ^ a = m * 2 ^ b) : n.log2 + a = 52 + b := by
  have hm : m.log2 = 52 := (Nat.log2_eq_iff (by omega)).mpr ⟨hlow, hhigh⟩
  rw [← log2_mul_pow hn, h, log2_mul_pow (by omega), hm]

/-- The significand of an integer: its first 53 bits. -/
def significand (n : Nat) : Nat := n * 2 ^ (52 - n.log2) / 2 ^ (n.log2 - 52)

/-- An integer all of whose bits are among the first 53. -/
def Exact (n : Nat) : Prop := 2 ^ (n.log2 - 52) ∣ n

theorem Exact.significand_mul {n : Nat} (h : Exact n) :
    significand n * 2 ^ (n.log2 - 52) = n * 2 ^ (52 - n.log2) :=
  Nat.div_mul_cancel (Dvd.dvd.mul_right h _)

theorem Exact.significand_bounds {n : Nat} (hn : n ≠ 0) (h : Exact n) :
    2 ^ 52 ≤ significand n ∧ significand n < 2 ^ 53 := by
  have hmul := h.significand_mul
  have hsig : significand n ≠ 0 := by
    intro h0
    rw [h0, Nat.zero_mul] at hmul
    exact Nat.mul_ne_zero hn (Nat.two_pow_pos _).ne' hmul.symm
  have hlog := congrArg Nat.log2 hmul
  rw [log2_mul_pow hsig, log2_mul_pow hn] at hlog
  exact (Nat.log2_eq_iff hsig).mp (by omega)

theorem exact_of_lt {n : Nat} (h : n < 2 ^ 53) : Exact n := by
  by_cases hn : n = 0
  · subst hn
    exact dvd_zero _
  · have hlog : n.log2 < 53 := (Nat.log2_lt hn).mpr h
    rw [Exact, show n.log2 - 52 = 0 by omega]
    exact one_dvd n

/-- An exact integer is not rounded. -/
theorem round_of_exact {n : Nat} (hn : n ≠ 0) (h : Exact n) :
    binary64.round n 1 = (significand n, (n.log2 : Int) - 52) := by
  have hlow := Nat.log2_self_le hn
  have hlog : Nat.log2 1 = 0 := rfl
  have hpow : Nat.pow 2 53 = 2 ^ 53 := rfl
  have hfull : ¬ n * 2 ^ (53 - n.log2) < 2 ^ 53 * (1 * 2 ^ (n.log2 - 53)) := by
    rw [Nat.not_lt, Nat.one_mul, ← Nat.pow_add]
    calc 2 ^ (53 + (n.log2 - 53)) = 2 ^ n.log2 * 2 ^ (53 - n.log2) := by
          rw [← Nat.pow_add]; congr 1; omega
      _ ≤ n * 2 ^ (53 - n.log2) := Nat.mul_le_mul_right _ hlow
  have hup : (-((n.log2 : Int) - (0 : Nat) - (53 : Nat))).toNat = 53 - n.log2 := by omega
  have hdown : (- -((n.log2 : Int) - (0 : Nat) - (53 : Nat))).toNat = n.log2 - 53 := by omega
  have hup' : (-((n.log2 : Int) - 52)).toNat = 52 - n.log2 := by omega
  have hdown' : (- -((n.log2 : Int) - 52)).toNat = n.log2 - 52 := by omega
  have hexp : max (-1074) ((n.log2 : Int) - (0 : Nat) - (53 : Nat) + 1) = (n.log2 : Int) - 52 := by
    omega
  simp only [Format.round, binary64, hlog, scaled_eq, hup, hdown, hpow]
  rw [if_neg hfull, hexp, hup', hdown', Nat.one_mul, ← h.significand_mul,
    roundDiv_mul _ (Nat.two_pow_pos _)]

/-- The bits of the float of an exact integer. -/
theorem fields_ofInt {z : Int} (hz : z ≠ 0) (h : Exact z.natAbs) (hlog : z.natAbs.log2 < 1024) :
    Fields (ofInt z) (decide (z < 0)) (z.natAbs.log2 + 1023) (significand z.natAbs - 2 ^ 52) := by
  have hn : z.natAbs ≠ 0 := Int.natAbs_ne_zero.mpr hz
  obtain ⟨hlow, hhigh⟩ := h.significand_bounds hn
  have hpow : Nat.pow 2 52 = 2 ^ 52 := rfl
  have hpow' : Nat.pow 2 63 = 2 ^ 63 := rfl
  have hexp : ((z.natAbs.log2 : Int) - 52 + 1074).toNat = z.natAbs.log2 + 1022 := by omega
  refine ⟨by omega, by omega, ?_⟩
  rw [ofInt, ofFraction, nearest, round_of_exact hn h]
  simp only [hexp, hpow, hpow', if_neg hn]
  generalize significand z.natAbs = m at *
  generalize z.natAbs.log2 = l at *
  rw [if_pos (by omega), Option.getD_some, toBits_ofBits, UInt64.toNat_ofNat_of_lt']
  all_goals
    by_cases hneg : z < 0 <;> simp [hneg, UInt64.size] <;> omega

/-! ### Values -/

/-- What a finite number stands for. -/
def value? (x : Float) : Option ℚ :=
  match parts x with
  | .finite neg m e => some ((if neg then -1 else 1) * m * 2 ^ e)
  | _ => none

/-- A fraction without what is behind the point. -/
def truncated (q : ℚ) : Int := if 0 ≤ q then ⌊q⌋ else ⌈q⌉

theorem zpow_eq (e : Int) : (2 : ℚ) ^ e = 2 ^ e.toNat / 2 ^ (-e).toNat := by
  cases e with
  | ofNat k => simp
  | negSucc k => simp [zpow_negSucc]

theorem value?_eq_some {x : Float} {q : ℚ} :
    value? x = some q ↔
      ∃ neg m e, parts x = .finite neg m e ∧ q = (if neg then -1 else 1) * m * 2 ^ e := by
  unfold value?
  constructor
  · intro h
    split at h
    · rename_i neg m e hparts
      exact ⟨neg, m, e, hparts, (Option.some.inj h).symm⟩
    · cases h
  · rintro ⟨neg, m, e, hparts, rfl⟩
    rw [hparts]

@[simp] theorem truncated_intCast (z : Int) : truncated z = z := by
  simp [truncated]

theorem truncated_neg (q : ℚ) : truncated (-q) = -truncated q := by
  unfold truncated
  rcases lt_trichotomy q 0 with h | rfl | h
  · rw [if_pos (by linarith), if_neg (by linarith), Int.floor_neg]
  · simp
  · rw [if_neg (by linarith), if_pos (by linarith), Int.ceil_neg]

theorem truncated_scaled (m : Nat) (e : Int) :
    truncated (m * 2 ^ e) = ((scaled m 1 e).1 / (scaled m 1 e).2 : Nat) := by
  have hcast : (m : ℚ) * (2 ^ e.toNat / 2 ^ (-e).toNat) =
      ((m * 2 ^ e.toNat : Nat) : ℚ) / ((2 ^ (-e).toNat : Nat) : ℚ) := by
    push_cast
    rw [mul_div_assoc]
  rw [truncated, if_pos (by positivity), zpow_eq, hcast, Rat.floor_natCast_div_natCast, scaled_eq,
    Nat.one_mul]
  exact (Int.natCast_ediv _ _).symm

/-- The integer part of a number is its value without what is behind the point. -/
theorem toInt_eq (x : Float) : toInt x = (value? x).map truncated := by
  unfold toInt value?
  cases parts x with
  | nan => rfl
  | infinite neg => rfl
  | finite neg m e =>
    have htrunc := truncated_scaled m e
    cases neg with
    | false =>
      simp only [Bool.false_eq_true, if_false, Option.map_some, one_mul]
      rw [htrunc]
    | true =>
      simp only [if_true, Option.map_some]
      rw [neg_one_mul, neg_mul, truncated_neg, htrunc]

/-- The significand of a finite number has 53 bits. -/
theorem parts_lt {x : Float} {neg : Bool} {m : Nat} {e : Int} (h : parts x = .finite neg m e) :
    m < 2 ^ 53 := by
  obtain ⟨exponent, fraction, hfields⟩ := exists_fields h
  have hlt := hfields.fraction_lt
  rw [hfields.parts_eq] at h
  split at h <;> cases h <;> omega

/-- The integer part of a number is not rounded. -/
theorem exact_of_toInt {x : Float} {z : Int} (h : toInt x = some z) : Exact z.natAbs := by
  unfold toInt at h
  split at h
  · rename_i neg m e hparts
    have hm := parts_lt hparts
    have habs : z.natAbs = m * 2 ^ e.toNat / 2 ^ (-e).toNat := by
      rw [scaled_eq, Nat.one_mul] at h
      rw [← Option.some.inj h]
      cases neg with
      | false => exact Int.natAbs_natCast _
      | true => exact (Int.natAbs_neg _).trans (Int.natAbs_natCast _)
    rw [habs]
    by_cases he : 0 ≤ e
    · rw [show (-e).toNat = 0 by omega, Nat.pow_zero, Nat.div_one]
      by_cases hzero : m = 0
      · rw [hzero, Nat.zero_mul]
        exact exact_of_lt (Nat.two_pow_pos 53)
      · have hlog : m.log2 < 53 := (Nat.log2_lt hzero).mpr hm
        rw [Exact, log2_mul_pow hzero]
        exact Dvd.dvd.mul_left (Nat.pow_dvd_pow 2 (by omega)) m
    · rw [show e.toNat = 0 by omega, Nat.pow_zero, Nat.mul_one]
      exact exact_of_lt ((Nat.div_le_self _ _).trans_lt hm)
  · cases h

theorem mul_zpow_eq_natCast_iff {n m : Nat} {e : Int} :
    (m : ℚ) * 2 ^ e = n ↔ n * 2 ^ (-e).toNat = m * 2 ^ e.toNat := by
  have hpos : (2 : ℚ) ^ (-e).toNat ≠ 0 := pow_ne_zero _ two_ne_zero
  rw [zpow_eq, ← mul_div_assoc, div_eq_iff hpos, eq_comm]
  exact_mod_cast Iff.rfl

/-- An integer has one sign and one absolute value. -/
theorem eq_sign_mul_iff {z : Int} (hz : z ≠ 0) {neg : Bool} {q : ℚ} (hq : 0 ≤ q) :
    (z : ℚ) = (if neg then -1 else 1) * q ↔ neg = decide (z < 0) ∧ q = z.natAbs := by
  have habs : ((z.natAbs : Nat) : ℚ) = |(z : ℚ)| := by rw [Nat.cast_natAbs, Int.cast_abs]
  rw [habs]
  rcases lt_or_gt_of_ne hz with h | h
  · have hz' : (z : ℚ) < 0 := by exact_mod_cast h
    rw [abs_of_neg hz', decide_eq_true h]
    cases neg with
    | false =>
      simp only [Bool.false_eq_true, if_false, one_mul, false_and, iff_false]
      exact fun hzq => by linarith
    | true =>
      simp only [if_true, neg_one_mul, true_and]
      exact eq_neg_iff_add_eq_zero.trans (by rw [add_comm, eq_neg_iff_add_eq_zero])
  · have hz' : (0 : ℚ) < z := by exact_mod_cast h
    rw [abs_of_pos hz', decide_eq_false (by omega)]
    cases neg with
    | false =>
      simp only [Bool.false_eq_true, if_false, one_mul, true_and]
      exact eq_comm
    | true =>
      simp only [if_true, neg_one_mul, Bool.true_eq_false, false_and, iff_false]
      exact fun hzq => by linarith

/-- The value of the float of an exact integer is that integer. -/
theorem value?_ofInt {z : Int} (h : Exact z.natAbs) (hlog : z.natAbs.log2 < 1024) :
    value? (ofInt z) = some (z : ℚ) := by
  by_cases hz : z = 0
  · have hfields : Fields (ofInt 0) false 0 0 := ⟨by decide, by decide, by decide +kernel⟩
    rw [hz]
    exact value?_eq_some.mpr ⟨_, _, _, hfields.parts_eq, by simp⟩
  · have hn : z.natAbs ≠ 0 := Int.natAbs_ne_zero.mpr hz
    have hfields := fields_ofInt hz h hlog
    obtain ⟨hlow, -⟩ := h.significand_bounds hn
    have hexp : ((z.natAbs.log2 + 1023 : Nat) : Int) - 1075 = z.natAbs.log2 - 52 := by omega
    have hvalue : (significand z.natAbs : ℚ) * 2 ^ ((z.natAbs.log2 : Int) - 52) = z.natAbs := by
      rw [mul_zpow_eq_natCast_iff, show ((z.natAbs.log2 : Int) - 52).toNat = z.natAbs.log2 - 52 by
        omega, show (-((z.natAbs.log2 : Int) - 52)).toNat = 52 - z.natAbs.log2 by omega,
        h.significand_mul]
    refine value?_eq_some.mpr ⟨_, _, _, hfields.parts_eq.trans (if_neg (by omega)), ?_⟩
    rw [Nat.add_sub_cancel' hlow, mul_assoc, hexp]
    exact (eq_sign_mul_iff hz (by positivity)).mpr ⟨rfl, hvalue⟩

/-- A whole number is the float of the integer it stands for. Only the negative zero is not. -/
theorem ofInt_of_value? {x : Float} {z : Int} (h : value? x = some (z : ℚ)) (hz : z ≠ 0) :
    ofInt z = x := by
  have hn : z.natAbs ≠ 0 := Int.natAbs_ne_zero.mpr hz
  have hexact : Exact z.natAbs := exact_of_toInt (by rw [toInt_eq, h, Option.map_some,
    truncated_intCast])
  obtain ⟨neg, m, e, hparts, hq⟩ := value?_eq_some.mp h
  rw [mul_assoc, eq_sign_mul_iff hz (by positivity), mul_zpow_eq_natCast_iff] at hq
  obtain ⟨hneg, hscaled⟩ := hq
  obtain ⟨exponent, fraction, hfields⟩ := exists_fields hparts
  have hexp := hfields.exponent_lt
  have hfrac := hfields.fraction_lt
  rw [hfields.parts_eq] at hparts
  split at hparts
  · cases hparts
    -- What is so small is less than one.
    have hlarge (k : Nat) (hk : 52 ≤ k) : 2 ^ 52 ≤ z.natAbs * 2 ^ k :=
      (Nat.pow_le_pow_right two_pos hk).trans (Nat.le_mul_of_pos_left _ (Nat.pos_of_ne_zero hn))
    have hle := (hlarge _ (by decide)).trans_eq hscaled
    rw [show (-1074 : Int).toNat = 0 from rfl, Nat.pow_zero, Nat.mul_one] at hle
    exact absurd hfrac (Nat.not_lt.mpr hle)
  · rename_i hnormal
    cases hparts
    have hlog := log2_of_significand hn (by omega) (by omega) hscaled
    have hfields' := fields_ofInt hz hexact (by omega)
    have hsig : significand z.natAbs = 2 ^ 52 + fraction := by
      have hmul := hexact.significand_mul
      rw [show 52 - z.natAbs.log2 = (-((exponent : Int) - 1075)).toNat by omega, hscaled,
        show z.natAbs.log2 - 52 = ((exponent : Int) - 1075).toNat by omega] at hmul
      exact Nat.eq_of_mul_eq_mul_right (Nat.two_pow_pos _) hmul
    rw [hsig, Nat.add_sub_cancel_left, show z.natAbs.log2 + 1023 = exponent by omega, ← hneg]
      at hfields'
    exact hfields'.unique hfields

end Number

end LittleLisp
