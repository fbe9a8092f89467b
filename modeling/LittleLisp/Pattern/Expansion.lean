/-
# Expanding user-defined forms

Matching the operands of a form against the patterns of a clause fills two tables: what
each variable stands for in each repetition, and how often each variable was repeated.
An entry's key is the variable's name followed by the repetition numbers, outermost
first, each after a `#`. The template is then written out from the tables.

An item takes the next tree, a repeated one takes its trees by their number, and a variable of a
template takes as many repetition numbers as it has ellipses. Each would fail if there were not as
many.

Key definitions: `Search`, `Matches`, `Matches.unify`, `Matches.expand`,
`Transformation.rewrite`, `Transformation.expand`.
-/
import LittleLisp.Pattern
import LittleLisp.Slice

namespace LittleLisp

/-- A search, which finds something or nothing unless it fails. -/
abbrev Search := OptionT (Except Text)

/-- A search that has come to its end. -/
def Search.ofOption {α : Type} (x : Option α) : Search α := OptionT.mk (.ok x)

/-- What a match has found. -/
structure Matches where
  /-- The tree of each variable in each repetition. -/
  nodes : Bindings Node
  /-- The number of repetitions of each variable in each enclosing repetition. -/
  counts : Bindings Nat

namespace Matches

/-- Nothing found yet. -/
def empty : Matches := ⟨[], []⟩

/-- The key of a variable in a repetition. -/
def key (name : Text) (path : List Nat) : Text :=
  name ++ path.flatMap fun i => ("#" : Text) ++ Text.ofNat i

mutual

/-- Records how often the variables of a pattern were repeated. -/
def count (m : Matches) (path : List Nat) (n : Nat) : Pattern → Matches
  | .constant _ => m
  | .literal _ => m
  | .wildcard => m
  | .variable name _ => { m with counts := m.counts.insert (key name path) n }
  | .list items => countItems m path n items
  | .repeated item => count m path n item

/-- Records how often the variables of some patterns were repeated. -/
def countItems (m : Matches) (path : List Nat) (n : Nat) : List Pattern → Matches
  | [] => m
  | p :: ps => countItems (count m path n p) path n ps

end

mutual

/-- Counting repetitions finds no further trees. -/
theorem nodes_count (path : List Nat) (n : Nat) :
    ∀ (p : Pattern) (m : Matches), (m.count path n p).nodes = m.nodes
  | .constant _, _ => rfl
  | .literal _, _ => rfl
  | .wildcard, _ => rfl
  | .variable _ _, _ => rfl
  | .list items, m => nodes_countItems path n items m
  | .repeated item, m => nodes_count path n item m

theorem nodes_countItems (path : List Nat) (n : Nat) :
    ∀ (ps : List Pattern) (m : Matches), (m.countItems path n ps).nodes = m.nodes
  | [], _ => rfl
  | p :: ps, m => by
    rw [countItems, nodes_countItems path n ps, nodes_count path n p]

end

/-- Matches trees against one pattern after the other, the repetition number counted from `i`. -/
def unifyEach (unify : Matches → List Nat → Node → Search Matches) (path : List Nat) :
    Nat → List Node → Matches → Search Matches
  | _, [], m => pure m
  | i, n :: ns, m => do
    let m ← unify m (path ++ [i]) n
    unifyEach unify path (i + 1) ns m

mutual

/-- Matches a tree against a pattern in the repetition `path`. -/
def unify : Pattern → Matches → List Nat → Node → Search Matches
  | .wildcard, m, _, _ => pure m
  | .variable name _, m, path, n => pure { m with nodes := m.nodes.insert (key name path) n }
  | .literal name, m, _, n =>
    match n.identifier? with
    | some t => if t.text = name then pure m else failure
    | none => failure
  | .constant t, m, _, n =>
    match n with
    | .leaf u => if u.type = t.type ∧ u.value.same t.value then pure m else failure
    | _ => failure
  | .list items, m, path, n =>
    match n with
    | .form children => unifyItems items m path children
    | _ => failure
  | .repeated item, m, path, n => unify item m path n

/-- Matches a list of trees against the patterns of a list. A repeated item takes what the items
after it leave over. -/
def unifyItems : List Pattern → Matches → List Nat → List Node → Search Matches
  | [], m, _, nodes => if nodes.isEmpty then pure m else failure
  | .repeated item :: rest, m, path, nodes =>
    let n : Int := nodes.length - rest.length
    if n < 0 then failure
    else do
      let own ← Slice.upTo nodes n
      let others ← Slice.after nodes n
      let m ← unifyEach (unify item) path 0 own m
      unifyItems rest (count m path n.toNat item) path others
  | item :: rest, m, path, nodes =>
    if nodes.length = 0 then failure
    else do
      let n ← OptionT.lift (Slice.item nodes 0)
      let m ← unify item m path n
      let others ← Slice.after nodes 1
      unifyItems rest m path others

end

mutual

/-- Whether every variable that a template repeats was repeated `n` times in the repetition
`path`. -/
def sameCounts (m : Matches) (path : List Nat) (n : Nat) : Template → Bool
  | .leaf _ => true
  | .variable name depth =>
    if path.length < depth then m.counts.find? (key name path) == some n else true
  | .list items => sameCountsItems m path n items
  | .repeated _ item => sameCounts m path n item

/-- Whether every variable that some templates repeat was repeated `n` times. -/
def sameCountsItems (m : Matches) (path : List Nat) (n : Nat) : List Template → Bool
  | [] => true
  | t :: ts => sameCounts m path n t && sameCountsItems m path n ts

end

/-- The expansions of a template in the repetitions `i`, `i + 1`, … of `path`, `n` of them. -/
def expandEach (expand : List Nat → Search Node) (path : List Nat) :
    Nat → Nat → Search (List Node)
  | _, 0 => pure []
  | i, n + 1 => do
    let t ← expand (path ++ [i])
    let ts ← expandEach expand path (i + 1) n
    return t :: ts

mutual

/-- Writes out a template in the repetition `path`. Finds nothing to write if variables that are
repeated together were found a different number of times. -/
def expand (m : Matches) : Template → List Nat → Search Node
  | .leaf t, _ => pure (.leaf t)
  | .variable name depth, path => do
    let own ← Slice.upTo path depth
    .ofOption (m.nodes.find? (key name own))
  | .list items, path => do
    let children ← expandItems m items path
    return .form children
  | .repeated _ item, path => expand m item path

/-- Writes out the templates of a list. -/
def expandItems (m : Matches) : List Template → List Nat → Search (List Node)
  | [], _ => pure []
  | .repeated driver item :: rest, path => do
    let n := (m.counts.find? (key driver path)).getD 0
    if sameCounts m path n item then
      let repetitions ← expandEach (expand m item) path 0 n
      let others ← expandItems m rest path
      return repetitions ++ others
    else failure
  | item :: rest, path => do
    let t ← expand m item path
    let ts ← expandItems m rest path
    return t :: ts

end

end Matches

namespace Transformation

/-- The first clause whose patterns match the operands, with what they matched. -/
def select (operands : List Node) : List Clause → Search (Clause × Matches)
  | [] => failure
  | c :: cs =>
    (do
      let m ← Matches.unifyItems c.operands .empty [] operands
      return (c, m)) <|> select operands cs

/-- The operands of a form in a message. -/
def operandText (L : Legend) (operands : List Node) : Text :=
  Value.shown ((Node.form operands).text L)

/-- What a form with the given operands is replaced by: the template of the first clause that
matches, or a leaf that reports a fault. -/
def rewrite (L : Legend) (x : Transformation) (operands : List Node) : Except Text Node := do
  match ← (select operands x.clauses).run with
  | none =>
    return .malformed (Node.positionOfAll operands)
      ["no syntax-rules clause of ", x.keyword, " matches ", operandText L operands]
  | some (clause, m) =>
    match ← (m.expand clause.template []).run with
    | some n => return n
    | none =>
      return .malformed (Node.positionOfAll operands)
        [x.keyword, ": ellipsis variables matched different lengths in ", operandText L operands]

/-- What a form is replaced by where no evaluation is there to be interrupted: a failure is a leaf
that reports it. -/
def expand (L : Legend) (x : Transformation) (operands : List Node) : Node :=
  match x.rewrite L operands with
  | .ok n => n
  | .error message => .ofFault (.placed .native (Node.positionOfAll operands) [message])

end Transformation

end LittleLisp
