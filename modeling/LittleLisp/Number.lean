/-
# Numbers

A number of the language is a binary64 float. Its text, its remainder, its integer
part and the number nearest to a fraction are computed exactly, on the float taken
apart into a sign, a natural number and a power of two.

Key definitions: `Number.parts`, `Number.nearest`, `Number.ofInt`, `Number.toInt`,
`Number.remainder`, `Number.toSingle`.
-/

namespace LittleLisp

namespace Number

/-- What a float stands for: nothing, an infinity, or `± m · 2 ^ e`. -/
inductive Parts where
  | nan
  | infinite (neg : Bool)
  | finite (neg : Bool) (m : Nat) (e : Int)

/-- A float taken apart. -/
def parts (x : Float) : Parts :=
  let bits : Nat := x.toBits.toNat
  let neg := decide (Nat.pow 2 63 ≤ bits)
  let exponent : Nat := bits / Nat.pow 2 52 % 2048
  let fraction : Nat := bits % Nat.pow 2 52
  if exponent = 2047 then
    if fraction = 0 then .infinite neg else .nan
  else if exponent = 0 then .finite neg fraction (-1074)
  else .finite neg (Nat.pow 2 52 + fraction) ((exponent : Int) - 1075)

/-- Whether a number is none: it then differs from every number, itself included. -/
def isNaN (x : Float) : Bool := !(x == x)

/-- The float that is no number. -/
def nan : Float := Float.ofBits 0x7FF8000000000000

/-- The infinity of a sign. -/
def infinity (neg : Bool) : Float :=
  Float.ofBits (if neg then 0xFFF0000000000000 else 0x7FF0000000000000)

/-- `n / d` to the nearest natural number, a half going to the even neighbour. -/
def roundDiv (n d : Nat) : Nat :=
  let q := n / d
  let r := n % d
  if 2 * r < d then q
  else if d < 2 * r then q + 1
  else if q % 2 = 0 then q else q + 1

/-- A fraction with a power of two moved into it: `n / d · 2 ^ e`. -/
def scaled (n d : Nat) (e : Int) : Nat × Nat :=
  match e with
  | .ofNat k => (n * Nat.pow 2 k, d)
  | .negSucc k => (n, d * Nat.pow 2 (k + 1))

/-- A binary format: `precision` bits of significand and a least exponent. -/
structure Format where
  precision : Nat
  least : Int

/-- Double precision. -/
def binary64 : Format := ⟨53, -1074⟩

/-- Single precision. -/
def binary32 : Format := ⟨24, -149⟩

/-- The significand and exponent of the value of the format nearest to `n / d`, with no upper
limit on the exponent. -/
def Format.round (f : Format) (n d : Nat) : Nat × Int :=
  let guess : Int := (n.log2 : Int) - d.log2 - f.precision
  let below := (scaled n d (-guess)).1 < Nat.pow 2 f.precision * (scaled n d (-guess)).2
  let e := max f.least (if below then guess else guess + 1)
  let s := scaled n d (-e)
  (roundDiv s.1 s.2, e)

/-- The float nearest to `± n / d`, or `none` if that is beyond the largest one. -/
def nearest (neg : Bool) (n d : Nat) : Option Float :=
  let (m, e) := binary64.round n d
  let magnitude := (e + 1074).toNat * Nat.pow 2 52 + m
  if n = 0 then some (Float.ofBits (if neg then 0x8000000000000000 else 0))
  else if magnitude < 2047 * Nat.pow 2 52 then
    some (Float.ofBits (UInt64.ofNat (magnitude + if neg then Nat.pow 2 63 else 0)))
  else none

/-- The float nearest to `± n / d`, which may be an infinity. -/
def ofFraction (neg : Bool) (n d : Nat) : Float :=
  (nearest neg n d).getD (infinity neg)

/-- The float nearest to an integer. -/
def ofInt (z : Int) : Float := ofFraction (decide (z < 0)) z.natAbs 1

/-- The float nearest to a natural number. -/
def ofNat (n : Nat) : Float := ofFraction false n 1

/-- A number without its fractional part, or `none` if it is not finite. -/
def toInt (x : Float) : Option Int :=
  match parts x with
  | .finite neg m e =>
    let s := scaled m 1 e
    let n : Nat := s.1 / s.2
    some (if neg then -(n : Int) else n)
  | _ => none

/-- A number's value as an index: `some n` when it is the natural number `n`. -/
def toIndex (x : Float) : Option Nat :=
  match toInt x with
  | some (.ofNat n) => if ofNat n == x then some n else none
  | _ => none

/-- The single precision number nearest to a number. -/
def toSingle (x : Float) : Float :=
  match parts x with
  | .finite neg m e =>
    let s := scaled m 1 e
    let (m', e') := binary32.round s.1 s.2
    let s' := scaled m' 1 e'
    if m = 0 then x
    else if Nat.pow 2 128 * s'.2 ≤ s'.1 then infinity neg
    else ofFraction neg s'.1 s'.2
  | _ => x

/-- The remainder of `x` divided by `y` toward zero: exact, with the sign of `x`. -/
def remainder (x y : Float) : Float :=
  match parts x, parts y with
  | .finite neg m e, .finite _ m' e' =>
    if m' = 0 then nan
    else
      let least := min e e'
      let r := (m * Nat.pow 2 (e - least).toNat) % (m' * Nat.pow 2 (e' - least).toNat)
      let s := scaled r 1 least
      ofFraction neg s.1 s.2
  | .finite _ _ _, .infinite _ => x
  | _, _ => nan

/-- The ratio of a circle's circumference to its diameter. -/
def pi : Float := Float.ofBits 0x400921FB54442D18

end Number

end LittleLisp
