/-
# Positions that exist

To read a list where it has no item interrupts the evaluation. It never comes to that: whoever
reads arguments or operands has checked how many there are. So each reader equals a function that
takes the list apart by its shape, and that is the form in which proofs use it.

A function of the language counts its arguments along its parameters once there are enough of them.
Definitions, keywords, methods and special forms take certain numbers of arguments or operands and
refuse all others, and a built-in function goes on only with as many as it takes.

Key definitions: `Bindings.insertAll`, `Machine.nested`, `Machine.conditionals`.
Key theorems: `Bindings.insertEach_eq`, `Machine.callClosure_eq`, `Machine.methodCall_eq`,
`Machine.expandConditional_eq`, `Machine.expandLambda_eq`, `Machine.expandCond_eq`,
`Builtin.withArity_cases`, `Builtin.length_numbers`, `Builtin.exists_addPairs`, `Builtin.apply_do`.
-/
import LittleLisp.Machine
import Mathlib.Tactic.Common

namespace LittleLisp

/-! ### Parameters -/

namespace Bindings

variable {α : Type}

/-- The bindings extended by a list of names and values, the last one winning among equal names.
Names and values are paired off as long as both last. -/
def insertAll : List Text → List α → Bindings α → Bindings α
  | n :: ns, a :: as, bs => insertAll ns as (insert n a bs)
  | _, _, bs => bs

/-- As many items as names are paired off with the names. -/
theorem insertEach_eq (items : List α) : ∀ (names : List Text) (i : Nat) (bs : Bindings α),
    i + names.length ≤ items.length →
      insertEach items i names bs = .ok (insertAll names (items.drop i) bs)
  | [], _, _, _ => by simp [insertEach, insertAll]
  | n :: ns, i, bs, h => by
    rw [List.length_cons] at h
    have hi : i < items.length := by omega
    rw [insertEach, Slice.item_of_lt hi, List.drop_eq_getElem_cons hi, insertAll]
    exact insertEach_eq items ns (i + 1) _ (by omega)

end Bindings

namespace Machine

variable {σ : Type} (M : Machine σ) (self : Recur σ)

/-- A call of a function of the language never fails for an argument that is not there. -/
theorem callClosure_eq (ref : Nat) (c : Closure) (args : List Value) :
    callClosure M self ref c args =
      if args.length < c.params.length ∨ (c.rest.isNone ∧ c.params.length < args.length) then do
        let L ← Action.legend M.host
        return .fail .arity
          [L.functionText ref, " expects ", Text.ofNat c.params.length, " arguments, got ",
            Text.ofNat args.length]
      else (do
        let scope := c.scope.insertAll c.params args
        match c.rest with
        | none => body self scope .nil c.body
        | some name =>
          let more ← Action.stamped (.list 0 (args.drop c.params.length))
          body self (scope.insert name more) .nil c.body) := by
  unfold callClosure
  split_ifs with h
  · rfl
  · have henough : c.params.length ≤ args.length := by
      rw [not_or, Nat.not_lt] at h
      exact h.1
    rw [Bindings.insertEach_eq args c.params 0 c.scope (by omega), Slice.after_of_le henough]
    rfl

/-! ### Arguments of definitions, keywords and methods -/

theorem callBinder_eq (name : Text) (args : List Value) :
    (callBinder name args : Action σ Value) =
      match args with
      | [v] => do
        Action.modify fun s => s.define name v
        return v.orNil
      | args => (do
        return .fail .arity ["def expects 1 value, got ", Text.ofNat args.length]) := by
  rcases args with _ | ⟨v, _ | ⟨w, ws⟩⟩ <;> rfl

theorem getKeyword_eq (keyword : Value) (args : List Value) (p : Position) :
    getKeyword M self keyword args p =
      match args with
      | [coll] => do
        let v ← call M self M.getter [coll, keyword]
        return v.located p
      | [coll, default] => do
        let v ← call M self M.getter [coll, keyword, default]
        return v.located p
      | args => (do
        let L ← Action.legend M.host
        let shown : Text := match keyword with
          | .absent => "%!s(<nil>)"
          | v => Value.shown (v.text L)
        return .error (.placed .arity p
          ["keyword ", shown, " expects 1 or 2 arguments, got ", Text.ofNat args.length])) := by
  rcases args with _ | ⟨v, _ | ⟨w, _ | ⟨u, us⟩⟩⟩ <;> rfl

theorem methodCall_eq (t : Token) (args : List Value) (p : Position) :
    methodCall M self t args p = (do
      let name := t.text.drop M.effectiveSigil.length
      match args with
      | [] => return .error (.placed .noReceiver p [t.text, " needs a receiver"])
      | .object o :: args => do
        match ← method M self name o args with
        | some v => return v.located p
        | none =>
          let L ← Action.legend M.host
          let shown := Value.shown ((Value.object o).text L)
          return .error (.placed .notExported p [name, " is not an exported method of ", shown])
      | receiver :: _ => do
        let L ← Action.legend M.host
        let t ← Action.ofExcept (receiver.described L)
        return .error (.placed .notExported p [name, " is not an exported method of ", t])) := by
  rcases args with _ | ⟨receiver, args⟩
  · rfl
  · cases receiver <;> rfl

/-! ### Operands of special forms -/

theorem expandConditional_eq (scope : Scope) (operands : List Node) :
    expandConditional self scope operands =
      match operands with
      | [test, yes] => do
        match ← self.eval scope test with
        | .error f => return .ofFault f
        | v => return if v.isTruthy then yes else .ofValue .nil test.position
      | [test, yes, no] => do
        match ← self.eval scope test with
        | .error f => return .ofFault f
        | v => return if v.isTruthy then yes else no
      | operands => (do
        return .malformed (Node.positionOfAll operands)
          ["if expects a test, a consequent and an optional alternative"]) := by
  rcases operands with _ | ⟨test, _ | ⟨yes, _ | ⟨no, _ | ⟨n, ns⟩⟩⟩⟩
  case cons.cons.nil =>
    refine congrArg (self.eval scope test >>= ·) (funext fun v => ?_)
    cases v with
    | error f => rfl
    | _ =>
      dsimp only
      split_ifs with htrue hlength
      · rfl
      · rfl
      · exact absurd rfl hlength
  case cons.cons.cons.nil =>
    refine congrArg (self.eval scope test >>= ·) (funext fun v => ?_)
    cases v with
    | error f => rfl
    | _ =>
      dsimp only
      split_ifs with htrue hlength
      · rfl
      · cases hlength
      · rfl
  all_goals rfl

theorem expandDefine_eq (operands : List Node) :
    expandDefine M operands =
      match operands with
      | [target, value] =>
        match target.identifier? with
        | some name => binding name value
        | none => do
          let t ← mention M target
          return .malformed target.position ["def expects an identifier, got ", t]
      | operands => (do
        return .malformed (Node.positionOfAll operands) ["def expects a name and a value"]) := by
  rcases operands with _ | ⟨target, _ | ⟨value, _ | ⟨n, ns⟩⟩⟩ <;> rfl

theorem restParameter_eq (p : Position) (after : List Node) :
    restParameter p after =
      match after with
      | [n] =>
        match n.identifier? with
        | some t => .ok (if t.text = [] then none else some t.text)
        | none => .fail p ["fn rest parameter is not an identifier"]
      | _ => .fail p ["fn expects exactly one parameter after &"] := by
  rcases after with _ | ⟨n, _ | ⟨m, ms⟩⟩ <;> rfl

theorem parameters_cons (L : Legend) (p : Position) (n : Node) (ns : List Node) :
    parameters L p (n :: ns) =
      match n.identifier? with
      | none => do
        let t ← n.mention L
        .fail p ["fn parameter ", t, " is not an identifier"]
      | some t =>
        if t.text = "&" then
          match ns with
          | [rest] =>
            match rest.identifier? with
            | some r => .ok ([], if r.text = [] then none else some r.text)
            | none => .fail t.pos ["fn rest parameter is not an identifier"]
          | _ => .fail t.pos ["fn expects exactly one parameter after &"]
        else (do
          let (names, rest) ← parameters L p ns
          return (t.text :: names, rest)) := by
  rw [parameters]
  cases n.identifier? with
  | none => rfl
  | some t =>
    dsimp only
    split_ifs
    · rw [restParameter_eq]
      rcases ns with _ | ⟨rest, _ | ⟨m, ms⟩⟩
      · rfl
      · dsimp only
        cases rest.identifier? <;> rfl
      · rfl
    · rfl

theorem expandLambda_eq (scope : Scope) (operands : List Node) :
    expandLambda M scope operands =
      match operands with
      | [] => pure (.malformed .unknown ["fn expects a parameter list"])
      | .form params :: trees => do
        let p := Node.positionOfAll params
        let L ← Action.legend M.host
        compiled (parameters L p params) fun (names, rest) => do
          let ref ← Action.update fun s => s.addFunction ⟨[], .closure ⟨names, rest, trees, scope⟩⟩
          return .ofValue (.function ref) p
      | n :: _ => (do
        let t ← mention M n
        return .malformed n.position ["fn expects a parameter list, got ", t]) := by
  rcases operands with _ | ⟨n, trees⟩
  · rfl
  · cases n <;> rfl

/-- The clauses of a `cond` as nested conditionals around `otherwise`, if they are lists with an
item; the last malformed clause is the one that is reported. -/
def nested (otherwise : Node) : List Node → Except Node Node
  | [] => .ok otherwise
  | c :: cs =>
    match nested otherwise cs with
    | .error n => .error n
    | .ok others =>
      match c with
      | .form (test :: trees) =>
        let p := c.position
        let chosen : Node := .form (.ofValue (.function Store.doRef) p :: trees)
        if isElse test then
          if cs.isEmpty then .ok chosen
          else .error (.malformed p ["else is not the last cond clause"])
        else .ok (.form [.ofValue (.transformer Store.conditionalRef) p, test, chosen, others])
      | c => .error (.malformed c.position ["cond clause must be a non-empty list"])

theorem clauses_eq (otherwise : Node) : ∀ cs : List Node,
    clauses otherwise cs = .ok (nested otherwise cs)
  | [] => rfl
  | c :: cs => by
    rw [clauses, clauses_eq otherwise cs, except_ok_bind, nested]
    cases nested otherwise cs with
    | error n => rfl
    | ok others =>
      rcases c with _ | t | _ | ⟨test, trees⟩
      case form.cons =>
        change (if isElse test then _ else _) = _
        dsimp only
        split_ifs <;> rfl
      all_goals rfl

/-- What a `cond` becomes. -/
def conditionals (operands : List Node) : Node :=
  match nested (.ofValue .nil (Node.positionOfAll operands)) operands with
  | .ok n => n
  | .error n => n

theorem expandCond_eq (operands : List Node) :
    (expandCond operands : Action σ Node) = pure (conditionals operands) := by
  rw [expandCond, clauses_eq, conditionals]
  cases nested (.ofValue .nil (Node.positionOfAll operands)) operands <;> rfl

theorem expandQuote_eq (operands : List Node) :
    (expandQuote operands : Action σ Node) =
      match operands with
      | [n] => do
        let v ← Action.settled n.datum
        return .ofValue v n.position
      | operands => (do
        return .malformed (Node.positionOfAll operands)
          ["quote expects 1 argument, got ", Text.ofNat operands.length]) := by
  rcases operands with _ | ⟨n, _ | ⟨m, ms⟩⟩ <;> rfl

theorem expandDefineForm_eq (operands : List Node) :
    expandDefineForm M operands =
      match operands with
      | [target, spec] =>
        match target.identifier? with
        | some name => do
          let L ← Action.legend M.host
          compiled (Transformation.compile L name.text spec) fun x => do
            let ref ← Action.update fun s => s.addTransformer ⟨name.text, .userDefined x⟩
            binding name (.ofValue (.transformer ref) name.pos)
        | none => do
          let t ← mention M target
          return .malformed target.position ["defsyntax expects an identifier, got ", t]
      | operands => (do
        return .malformed (Node.positionOfAll operands)
          ["defsyntax expects a name and a syntax-rules form"]) := by
  rcases operands with _ | ⟨target, _ | ⟨spec, _ | ⟨n, ns⟩⟩⟩ <;> rfl

end Machine

/-! ### Arguments of built-in functions -/

namespace Builtin

/-- A function goes on with as many arguments as it takes, or else says that it takes others. -/
theorem withArity_cases (name : Text) (args : List Value) (least : Nat) (most : Option Nat)
    (k : Result) :
    (withArity name args least most k = k ∧ least ≤ args.length ∧
      ∀ m, most = some m → args.length ≤ m) ∨
    ∃ message, withArity name args least most k = .ok (.fail .arity message) := by
  unfold withArity arityFault?
  split_ifs with h
  · exact Or.inr ⟨_, rfl⟩
  · rw [not_or, Nat.not_lt] at h
    refine Or.inl ⟨rfl, h.1, ?_⟩
    rintro m rfl
    simpa using h.2

/-- There are as many numbers as arguments. -/
theorem length_numbers : ∀ {vs : List Value} {i : Nat} {xs : List Float},
    numbers i vs = .ok xs → xs.length = vs.length
  | [], i, xs, h => by
    rw [← Except.ok.inj h]
    rfl
  | v :: vs, i, xs, h => by
    unfold numbers at h
    split at h
    · cases h
    · split at h
      · rename_i ys hys
        rw [← Except.ok.inj h, List.length_cons, List.length_cons, length_numbers hys]
      · cases h

/-- Keys and values in turn are added, or one of them is no key. -/
theorem exists_addPairs : ∀ (pairs : List Value) (i : Nat) (es : Entries),
    pairs.length % 2 = 0 → ∃ r, addPairs i es pairs = .ok r
  | [], _, es, _ => ⟨.ok es, rfl⟩
  | [_], _, _, h => by simp at h
  | k :: v :: more, i, es, h => by
    rw [List.length_cons, List.length_cons, Nat.add_assoc, Nat.add_mod_right] at h
    cases k with
    | atom a => exact exists_addPairs more (i + 2) (es.insert a v) h
    | _ => exact ⟨_, rfl⟩

theorem apply_eq (L : Legend) (v w : Value) :
    Builtin.eq.apply L [v, w] = .ok (.bool (v.same w)) := by
  have hall : ([w].all fun u => v.same u) = v.same w := by simp
  rw [← hall]
  rfl

/-- The last argument is there unless there is none. -/
theorem apply_do (L : Legend) (args : List Value) :
    Builtin.do.apply L args = .ok (args.getLast?.getD .nil) := by
  cases args with
  | nil => rfl
  | cons v vs =>
    have hlast : ((v :: vs).length : Int) - 1 = (vs.length : Nat) := by simp
    have hlt : vs.length < (v :: vs).length := Nat.lt_succ_self _
    change Slice.item (v :: vs) (((v :: vs).length : Int) - 1) = _
    rw [hlast, Slice.item_of_lt hlt, List.getLast?_eq_getElem?]
    simp

end Builtin

end LittleLisp
