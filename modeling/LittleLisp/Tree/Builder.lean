/-
# Building trees

The builder turns a flat list of tokens into a forest, with the list markers as
brackets. Lists that are still open at the end are closed there. An invalid token
makes the whole forest a single leaf that reports it, and so does a closing bracket
without an open list.

Key definitions: `Forest.build`.
Key theorems: `Forest.Stack.All.forest`, what holds of all trees on the way holds of the forest.
-/
import LittleLisp.Tree

namespace LittleLisp

namespace Forest

/-- The open lists of a partly built forest, innermost first; each holds its children so far in
reverse order, and the last one stands for the top level. -/
structure Stack where
  inner : List (List Node)
  top : List Node

namespace Stack

/-- Nothing built yet. -/
def empty : Stack := ⟨[], []⟩

/-- One more tree in the innermost list. -/
def add (s : Stack) (n : Node) : Stack :=
  match s.inner with
  | [] => { s with top := n :: s.top }
  | ns :: outer => { s with inner := (n :: ns) :: outer }

/-- A new innermost list. -/
def enter (s : Stack) : Stack := { s with inner := [] :: s.inner }

/-- The innermost list becomes a form of the list around it. -/
def close? (s : Stack) : Option Stack :=
  match s.inner with
  | [] => none
  | ns :: outer => some (add { s with inner := outer } (.form ns.reverse))

/-- The forest when all open lists are closed. -/
def forest : Stack → Forest
  | ⟨[], top⟩ => top.reverse
  | ⟨ns :: outer, top⟩ => closeAll outer (.form ns.reverse) top
where
  /-- Closes the lists around a finished form. -/
  closeAll : List (List Node) → Node → List Node → Forest
    | [], n, top => (n :: top).reverse
    | ns :: outer, n, top => closeAll outer (.form (n :: ns).reverse) top

/-- All trees of a partly built forest have a property. -/
structure All (Q : Node → Prop) (s : Stack) : Prop where
  inner : ∀ ns ∈ s.inner, ∀ n ∈ ns, Q n
  top : ∀ n ∈ s.top, Q n

section All

variable {Q : Node → Prop} {s s' : Stack}

theorem all_empty : empty.All Q :=
  ⟨fun _ h => absurd h List.not_mem_nil, fun _ h => absurd h List.not_mem_nil⟩

theorem All.add (h : s.All Q) {n : Node} (hn : Q n) : (s.add n).All Q := by
  obtain ⟨inner, top⟩ := s
  cases inner with
  | nil => exact ⟨h.inner, List.forall_mem_cons.mpr ⟨hn, h.top⟩⟩
  | cons ns outer =>
    obtain ⟨hns, houter⟩ := List.forall_mem_cons.mp h.inner
    exact ⟨List.forall_mem_cons.mpr ⟨List.forall_mem_cons.mpr ⟨hn, hns⟩, houter⟩, h.top⟩

theorem All.enter (h : s.All Q) : s.enter.All Q :=
  ⟨List.forall_mem_cons.mpr ⟨fun _ hn => absurd hn List.not_mem_nil, h.inner⟩, h.top⟩

variable (hform : ∀ ns, (∀ n ∈ ns, Q n) → Q (.form ns))

include hform

theorem All.close (h : s.All Q) (hs : s.close? = some s') : s'.All Q := by
  obtain ⟨inner, top⟩ := s
  cases inner with
  | nil => simp [close?] at hs
  | cons ns outer =>
    obtain ⟨hns, houter⟩ := List.forall_mem_cons.mp h.inner
    have hrest : (Stack.mk outer top).All Q := ⟨houter, h.top⟩
    rw [← Option.some.inj hs]
    exact hrest.add (hform _ fun n hn => hns n (List.mem_reverse.mp hn))

theorem all_closeAll : ∀ (outer : List (List Node)) {n : Node} {top : List Node},
    (∀ ns ∈ outer, ∀ n ∈ ns, Q n) → Q n → (∀ n ∈ top, Q n) →
      ∀ m ∈ forest.closeAll outer n top, Q m
  | [], n, top, _, hn, htop => by
    intro m hm
    exact List.forall_mem_cons.mpr ⟨hn, htop⟩ m (List.mem_reverse.mp hm)
  | ns :: outer, n, top, houter, hn, htop => by
    rw [List.forall_mem_cons] at houter
    refine all_closeAll outer houter.2 (hform _ fun m hm => ?_) htop
    exact List.forall_mem_cons.mpr ⟨hn, houter.1⟩ m (List.mem_reverse.mp hm)

/-- A property of all trees that passes from children to forms holds of the whole forest. -/
theorem All.forest (h : s.All Q) : ∀ n ∈ s.forest, Q n := by
  obtain ⟨inner, top⟩ := s
  cases inner with
  | nil => exact fun n hn => h.top n (List.mem_reverse.mp hn)
  | cons ns outer =>
    obtain ⟨hns, houter⟩ := List.forall_mem_cons.mp h.inner
    exact all_closeAll hform outer houter (hform _ fun n hn => hns n (List.mem_reverse.mp hn)) h.top

end All

end Stack

/-- Adds the tokens to a partly built forest, up to the first one that cannot be added. -/
def extend (module : Text) : Stack → List Token → Except Fault Stack
  | s, [] => .ok s
  | s, t :: ts =>
    match t.type with
    | .listBegin => extend module s.enter ts
    | .listEnd =>
      match s.close? with
      | some s => extend module s ts
      | none =>
        .error ((Fault.placed .invalidInput t.pos
          ["build: invalid input: unexpected ", t.text.quote]).located (.start module))
    | .invalid => .error (.placed .invalidToken t.pos ["build: invalid token ", t.text.quote])
    | _ => extend module (s.add (.leaf t)) ts

/-- The forest of a list of tokens. -/
def build (module : Text) (ts : List Token) : Forest :=
  match extend module .empty ts with
  | .ok s => s.forest
  | .error f => [Node.ofFault f]

end Forest

end LittleLisp
