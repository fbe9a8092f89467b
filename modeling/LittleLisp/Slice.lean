/-
# Reading lists by position

An index or a bound that is out of range is not nothing: it is a failure outside the language,
which interrupts an evaluation like any other. Whoever reads a list by position has to see to it
that the position exists.

Key definitions: `Slice.item`, `Slice.after`, `Slice.upTo`.
Key theorems: `Slice.item_of_lt`, `Slice.after_of_le`, `Slice.upTo_of_le`.
-/
import LittleLisp.Text

namespace LittleLisp

namespace Slice

variable {α : Type} {xs : List α}

/-- The failure to read the item at `i` of a list of `n` items. -/
def outOfRange (i : Int) (n : Nat) : Text :=
  if i < 0 then Text.concat ["runtime error: index out of range [", Text.ofInt i, "]"]
  else
    Text.concat
      ["runtime error: index out of range [", Text.ofInt i, "] with length ", Text.ofNat n]

/-- The failure to cut a list of `n` items before `i`. -/
def startOutOfRange (i : Int) (n : Nat) : Text :=
  if i < 0 then Text.concat ["runtime error: slice bounds out of range [", Text.ofInt i, ":]"]
  else
    Text.concat
      ["runtime error: slice bounds out of range [", Text.ofInt i, ":", Text.ofNat n, "]"]

/-- The failure to cut a list of `n` items after the first `i`. -/
def endOutOfRange (i : Int) (n : Nat) : Text :=
  if i < 0 then Text.concat ["runtime error: slice bounds out of range [:", Text.ofInt i, "]"]
  else
    Text.concat
      ["runtime error: slice bounds out of range [:", Text.ofInt i, "] with capacity ",
        Text.ofNat n]

/-- The item at an index. -/
def item (xs : List α) (i : Int) : Except Text α :=
  match i with
  | .ofNat k =>
    match xs[k]? with
    | some x => .ok x
    | none => .error (outOfRange i xs.length)
  | .negSucc _ => .error (outOfRange i xs.length)

/-- The items from an index on. -/
def after (xs : List α) (i : Int) : Except Text (List α) :=
  match i with
  | .ofNat k => if k ≤ xs.length then .ok (xs.drop k) else .error (startOutOfRange i xs.length)
  | .negSucc _ => .error (startOutOfRange i xs.length)

/-- The items before an index. What room there may be behind the last item is no part of a list, so
the bound is the length. -/
def upTo (xs : List α) (i : Int) : Except Text (List α) :=
  match i with
  | .ofNat k => if k ≤ xs.length then .ok (xs.take k) else .error (endOutOfRange i xs.length)
  | .negSucc _ => .error (endOutOfRange i xs.length)

theorem item_of_lt {k : Nat} (h : k < xs.length) : item xs k = .ok xs[k] := by
  change (match xs[k]? with
    | some x => .ok x
    | none => .error (outOfRange k xs.length)) = Except.ok xs[k]
  rw [List.getElem?_eq_getElem h]

theorem after_of_le {k : Nat} (h : k ≤ xs.length) : after xs k = .ok (xs.drop k) := if_pos h

theorem upTo_of_le {k : Nat} (h : k ≤ xs.length) : upTo xs k = .ok (xs.take k) := if_pos h

@[simp] theorem item_zero (x : α) (xs : List α) : item (x :: xs) 0 = .ok x := rfl

end Slice

end LittleLisp
