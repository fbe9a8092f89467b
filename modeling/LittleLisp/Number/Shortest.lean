/-
# Decimal text of numbers

A number is written with the fewest significant digits that read back as the same
number, and of those digit strings with the one nearest to it. Two notations use
those digits: `Number.text`, always positional, and `Number.compactText`, with an
exponent for numbers that are large or small.

Key definitions: `Decimal`, `Number.shortest`, `Number.text`, `Number.compactText`.
-/
import LittleLisp.Number
import LittleLisp.Text

namespace LittleLisp

/-- The number `digits · 10 ^ exponent`. -/
structure Decimal where
  digits : Nat
  exponent : Int

namespace Decimal

/-- A fraction with a power of ten moved into it: `n / d · 10 ^ k`. -/
def scaled (n d : Nat) (k : Int) : Nat × Nat :=
  match k with
  | .ofNat j => (n * Nat.pow 10 j, d)
  | .negSucc j => (n, d * Nat.pow 10 (j + 1))

/-- The same number without trailing zero digits; `fuel` bounds their count. -/
def trim (fuel : Nat) (x : Decimal) : Decimal :=
  match fuel with
  | 0 => x
  | fuel + 1 =>
    if x.digits ≠ 0 ∧ x.digits % 10 = 0 then trim fuel ⟨x.digits / 10, x.exponent + 1⟩ else x

/-- The significant digits as text. -/
def digitText (x : Decimal) : Text := Text.ofNat x.digits

/-- The decimal exponent of the leading digit. -/
def leading (x : Decimal) : Int := x.digitText.length + x.exponent - 1

/-- Positional notation, without an exponent. -/
def positional (x : Decimal) : Text :=
  let ds := x.digitText
  match x.exponent with
  | .ofNat k => ds ++ List.replicate k 48
  | .negSucc k =>
    let places := k + 1
    if places < ds.length then
      ds.take (ds.length - places) ++ "." ++ ds.drop (ds.length - places)
    else ("0." : Text) ++ List.replicate (places - ds.length) 48 ++ ds

/-- Notation with one digit before the point and an exponent of at least two digits. -/
def scientific (x : Decimal) : Text :=
  let ds := x.digitText
  let point : Text := if ds.length = 1 then [] else "."
  let e := x.leading.natAbs
  let pad : Text := if e < 10 then "0" else []
  let sign : Text := if x.leading < 0 then "-" else "+"
  ds.take 1 ++ point ++ ds.drop 1 ++ "e" ++ sign ++ pad ++ Text.ofNat e

end Decimal

namespace Number

/-- The decimal point's place in `n / d`: the least `k` near the estimate with `n / d < 10 ^ k`. -/
def magnitude (n d : Nat) : Int :=
  let guess : Int := ((n.log2 : Int) - d.log2) * 30103 / 100000
  let under (k : Int) : Bool :=
    let s := Decimal.scaled n d (-k)
    s.1 < s.2
  ([guess - 1, guess, guess + 1, guess + 2].find? under).getD (guess + 2)

/-- Whether `c · 10 ^ k` lies between the halfway points around `m · 2 ^ e`, where numbers are
read as that one; the halfway points themselves count when `m` is even. -/
def readsBack (m : Nat) (e : Int) (c : Nat) (k : Int) : Bool :=
  -- a power of two is only half as far from its lower neighbour
  let narrow := m == Nat.pow 2 52 && e != -1074
  let low := if narrow then 4 * m - 1 else 4 * m - 2
  let high := 4 * m + 2
  let c' := Decimal.scaled c 1 k
  let l := scaled low 4 e
  let h := scaled high 4 e
  let below := l.1 * c'.2
  let value := c'.1
  let above := h.1 * c'.2
  if m % 2 = 0 then below ≤ value * l.2 && value * h.2 ≤ above
  else below < value * l.2 && value * h.2 < above

/-- The decimal with the digits of the grid `10 ^ k` that reads back as `m · 2 ^ e`, the nearer
one of the two neighbours on the grid, the even one if both are equally near. -/
def onGrid (m : Nat) (e : Int) (k : Int) : Option Decimal :=
  let v := scaled m 1 e
  let s := Decimal.scaled v.1 v.2 (-k)
  let c := s.1 / s.2
  let r := s.1 % s.2
  let upFirst := s.2 < 2 * r || (2 * r == s.2 && c % 2 == 1)
  let near := if upFirst then c + 1 else c
  let far := if upFirst then c else c + 1
  if readsBack m e near k then some ⟨near, k⟩
  else if readsBack m e far k then some ⟨far, k⟩
  else none

/-- The shortest decimal that reads back as `m · 2 ^ e`. Seventeen digits always suffice. -/
def shortest (m : Nat) (e : Int) : Decimal :=
  let v := scaled m 1 e
  let k := magnitude v.1 v.2
  let grids := (List.range 17).map fun n : Nat => k - (n + 1 : Int)
  ((grids.findSome? (onGrid m e)).getD ⟨m, 0⟩).trim 20

/-- A signed notation of the shortest digits; infinities always show their sign. -/
def written (notate : Decimal → Text) (x : Float) : Text :=
  match parts x with
  | .nan => "NaN"
  | .infinite neg => if neg then "-Inf" else "+Inf"
  | .finite neg m e =>
    let sign : Text := if neg then "-" else []
    sign ++ notate (if m = 0 then ⟨0, 0⟩ else shortest m e)

/-- The positional text of a number. -/
def text (x : Float) : Text := written Decimal.positional x

/-- The text of a number with an exponent when its leading digit stands for less than `10 ^ -4`
or at least for `10 ^ 6`. -/
def compactText (x : Float) : Text :=
  written (fun d => if d.leading < -4 ∨ 6 ≤ d.leading then d.scientific else d.positional) x

end Number

end LittleLisp
