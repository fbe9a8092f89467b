/-
# Bindings

A finite map from names to values, kept as a list with one entry for each name in the
order in which the names were first bound. Scopes and modules are such maps.

Key definitions: `Bindings.find?`, `Bindings.insert`, `Bindings.insertEach`, `Bindings.names`.
Key theorems: `Bindings.find?_insert_self`, `Bindings.find?_insert_of_ne`,
`Bindings.mem_insert`.
-/
import LittleLisp.Slice

namespace LittleLisp

/-- A finite map from names. -/
abbrev Bindings (α : Type) := List (Text × α)

namespace Bindings

variable {α : Type}

/-- What a name is bound to. -/
def find? (name : Text) : Bindings α → Option α
  | [] => none
  | (n, a) :: rest => if name = n then some a else find? name rest

/-- The bindings with `name` bound to `a`, and all other names as before. -/
def insert (name : Text) (a : α) : Bindings α → Bindings α
  | [] => [(name, a)]
  | (n, b) :: rest => if name = n then (n, a) :: rest else (n, b) :: insert name a rest

/-- The bound names, in bytewise order. -/
def names (bs : Bindings α) : List Text := Text.sort (bs.map Prod.fst)

/-- The bindings with each of some names bound to the item of its number, counted from `i`; the last
one wins among equal names. -/
def insertEach (items : List α) : Nat → List Text → Bindings α → Except Text (Bindings α)
  | _, [], bs => .ok bs
  | i, n :: ns, bs => do
    let a ← Slice.item items i
    insertEach items (i + 1) ns (insert n a bs)

/-- A bound name has the value it was bound to. -/
@[simp] theorem find?_insert_self (name : Text) (a : α) :
    ∀ bs : Bindings α, find? name (insert name a bs) = some a
  | [] => by simp [insert, find?]
  | (n, b) :: rest => by
    by_cases h : name = n
    · simp [insert, find?, h]
    · simp [insert, find?, h, find?_insert_self name a rest]

/-- Binding a name leaves every other name alone. -/
theorem find?_insert_of_ne {name other : Text} (h : other ≠ name) (a : α) :
    ∀ bs : Bindings α, find? other (insert name a bs) = find? other bs
  | [] => by simp [insert, find?, h]
  | (n, b) :: rest => by
    by_cases hn : name = n
    · subst hn
      simp [insert, find?, h]
    · by_cases ho : other = n
      · simp [insert, find?, hn, ho]
      · simp [insert, find?, hn, ho, find?_insert_of_ne h a rest]

/-- What a name is bound to stands in the bindings. -/
theorem mem_of_find? {name : Text} {a : α} :
    ∀ {bs : Bindings α}, find? name bs = some a → (name, a) ∈ bs
  | (n, b) :: rest, h => by
    by_cases hn : name = n
    · have hb : b = a := by simpa [find?, hn] using h
      simp [hn, hb]
    · have hr : find? name rest = some a := by simpa [find?, hn] using h
      exact List.mem_cons_of_mem _ (mem_of_find? hr)

/-- Binding a name brings in no other value. -/
theorem mem_insert {name : Text} {a : α} {x : Text × α} :
    ∀ {bs : Bindings α}, x ∈ insert name a bs → x.2 = a ∨ x ∈ bs
  | [], h => by
    have hx : x = (name, a) := by simpa [insert] using h
    exact Or.inl (by rw [hx])
  | (n, b) :: rest, h => by
    by_cases hn : name = n
    · rcases List.mem_cons.mp (by simpa [insert, hn] using h : x ∈ (n, a) :: rest) with rfl | hr
      · exact Or.inl rfl
      · exact Or.inr (List.mem_cons_of_mem _ hr)
    · rcases List.mem_cons.mp (by simpa [insert, hn] using h : x ∈ (n, b) :: insert name a rest)
        with rfl | hr
      · exact Or.inr List.mem_cons_self
      · exact (mem_insert hr).imp id (List.mem_cons_of_mem _)

end Bindings

end LittleLisp
