/-
# Number literals

A literal is decimal (`12`, `.5`, `1e-7`) or hexadecimal with a binary exponent
(`0x1.8p3`); underscores may stand between digits. It denotes the nearest float, and
a literal beyond the largest float denotes none.

Key definitions: `Number.ofLiteral?`.
-/
import LittleLisp.Number
import LittleLisp.Text

namespace LittleLisp

namespace Number

/-- The value of a digit, up to `f`. -/
def digitValue? (b : UInt8) : Option Nat :=
  let n := b.toNat
  if 48 ≤ n ∧ n ≤ 57 then some (n - 48)
  else if 97 ≤ n ∧ n ≤ 102 then some (n - 87)
  else if 65 ≤ n ∧ n ≤ 70 then some (n - 55)
  else none

/-- Whether a byte is a digit of a base. -/
def isDigit (base : Nat) (b : UInt8) : Bool :=
  match digitValue? b with
  | some v => v < base
  | none => false

/-- Whether a byte may stand in a run of digits. -/
def inRun (base : Nat) (b : UInt8) : Bool := isDigit base b || b == 95

/-- The value of a run of digits, underscores left aside. -/
def runValue (base : Nat) (run : Text) : Nat :=
  run.foldl (fun n b => if b == 95 then n else n * base + (digitValue? b).getD 0) 0

/-- The digits of a run, underscores left aside. -/
def runDigits (run : Text) : Text := run.filter (· != 95)

/-- The value of an exponent's digits, which stops growing once it has reached ten thousand. -/
def exponentValue (run : Text) : Nat :=
  run.foldl (fun n b => if b == 95 ∨ 10000 ≤ n then n else n * 10 + (digitValue? b).getD 0) 0

/-- What the last character was, for the placement of underscores. -/
inductive Seen where
  | digit
  | underscore
  | other
  deriving DecidableEq

/-- Whether every underscore stands between two digits; `hex` counts `a` to `f` as digits. -/
def underscoresSeparate (hex : Bool) : Seen → Text → Bool
  | seen, [] => seen != .underscore
  | seen, b :: rest =>
    if isDigit (if hex then 16 else 10) b then underscoresSeparate hex .digit rest
    else if b == 95 then seen == .digit && underscoresSeparate hex .underscore rest
    else seen != .underscore && underscoresSeparate hex .other rest

/-- The exponent after a significand: its value and whether it is written correctly up to the end
of the literal. A literal without an exponent letter has the exponent `0`, if `required` is false. -/
def exponent? (letter : UInt8) (required : Bool) : Text → Option Int
  | [] => if required then none else some 0
  | b :: rest =>
    -- a letter matches in both cases
    if b ||| 0x20 = letter then
      let (neg, rest) : Bool × Text :=
        match rest with
        | 43 :: r => (false, r)
        | 45 :: r => (true, r)
        | r => (false, r)
      match rest with
      | [] => none
      | d :: _ =>
        if isDigit 10 d && rest.all (inRun 10) then
          some (if neg then -(exponentValue rest : Int) else exponentValue rest)
        else none
    else none

/-- The unsigned literal of a base. -/
def unsigned? (neg : Bool) (base : Nat) (t : Text) : Option Float :=
  let whole := t.takeWhile (inRun base)
  let rest := t.dropWhile (inRun base)
  let (fraction, rest) : Text × Text :=
    match rest with
    | 46 :: r => (r.takeWhile (inRun base), r.dropWhile (inRun base))
    | r => ([], r)
  let letter : UInt8 := if base = 16 then 112 else 101
  let significand := whole ++ fraction
  if runDigits significand = [] then none
  else
    match exponent? letter (base == 16) rest with
    | none => none
    | some e =>
      let n := runValue base significand
      let places := (runDigits fraction).length
      let shift : Int := if base = 16 then e - 4 * places else e - places
      let unit := if base = 16 then 2 else 10
      match shift with
      | .ofNat k => nearest neg (n * Nat.pow unit k) 1
      | .negSucc k => nearest neg n (Nat.pow unit (k + 1))

/-- The number that a literal denotes. -/
def ofLiteral? (t : Text) : Option Float :=
  let (neg, body) : Bool × Text :=
    match t with
    | 43 :: r => (false, r)
    | 45 :: r => (true, r)
    | r => (false, r)
  match body with
  | 48 :: x :: d :: rest =>
    if x ||| 0x20 = 120 then
      if underscoresSeparate true .digit (d :: rest) then unsigned? neg 16 (d :: rest) else none
    else if underscoresSeparate false .other body then unsigned? neg 10 body else none
  | _ => if underscoresSeparate false .other body then unsigned? neg 10 body else none

/-- Whether a text looks like a number rather than a word such as `inf`: after any signs and at
most one point it continues with a digit. -/
def looksNumeric (t : Text) : Bool :=
  let unsigned := t.dropWhile fun b => b == 43 || b == 45
  let body := match unsigned with
    | 46 :: r => r
    | r => r
  match body with
  | b :: _ => isDigit 10 b
  | [] => false

end Number

end LittleLisp
