/-
# The machine

How forms are evaluated. A machine fixes what a method call looks like, which function
a keyword in head position stands for, which validator checks method arguments, and
the embedding program.

Every step is written against `Recur`, the two ways in which evaluation can come back
to itself: evaluating a tree inside the current one, and a call made by a host
function. `Machine.recur` ties the knot, with a natural number that bounds how deep
evaluation may nest.

A fault is a value, and it stops whatever it is an argument of: arguments are
evaluated from left to right up to the first fault, and then the form has that fault
as its value. A fault that carries no position gets the position of the form that
produced it.

Arguments and operands are read by their index, once it has been checked how many there
are. An index without an argument would be an alarm.

Key definitions: `Machine`, `Machine.form`, `Machine.call`, `Machine.expand`,
`Machine.eval`, `Machine.recur`.
-/
import LittleLisp.Action
import LittleLisp.Pattern.Compiler
import LittleLisp.Pattern.Expansion

namespace LittleLisp

/-- What stays the same during an evaluation. -/
structure Machine (σ : Type) where
  /-- What the name of a method starts with in head position; the default `.` if empty. -/
  sigil : Text
  /-- The function that a keyword in head position stands for. -/
  getter : Nat
  /-- Checks the arguments of methods; without it nothing is checked. -/
  validator : Option Validator
  host : Host σ

/-- What the name of a method starts with unless a machine says otherwise. -/
def defaultSigil : Text := "."

/-- The ways in which evaluation comes back to itself. -/
structure Recur (σ : Type) where
  eval : Scope → Node → Action σ Value
  call : Nat → List Value → Action σ Value

/-- A result, or the fault that takes its place. -/
abbrev Checked (α : Type) := Except Fault α

namespace Machine

variable {σ : Type} (M : Machine σ) (self : Recur σ)

/-! ### Names and arguments -/

/-- The sigil in force. -/
def effectiveSigil : Text := if M.sigil = [] then defaultSigil else M.sigil

/-- Whether a leaf names a method: an identifier that starts with the sigil. -/
def isMethodName (t : Token) : Bool :=
  t.type == .identifier && M.effectiveSigil.extendedBy t.text

/-- What an identifier stands for: its local value, else its value in the module, else the value it
carries, if any. -/
def resolve (scope : Scope) (t : Token) (s : Store σ) : Checked Value :=
  match scope.find? t.text with
  | some v => .ok v
  | none =>
    match s.find? t.text with
    | some v => .ok v
    | none =>
      match t.value with
      | .absent => .error (.placed .notFound t.pos [t.text, " not found in context"])
      | .undefined _ => .error (.placed .notFound t.pos [t.text, " not found in context"])
      | v => .ok v

/-- The value of one argument, or the fault that stops the form. -/
def argument (scope : Scope) (n : Node) : Action σ (Checked Value) :=
  match n with
  | .leaf t =>
    match t.type with
    | .identifier => fun s => .done (resolve scope t s) s
    | .error =>
      match t.value with
      | .error f => pure (.error f)
      | _ => pure (.error (.placed .invalidToken t.pos ["invalid token ", t.text.quote]))
    | _ => pure (.ok t.value.orNil)
  | n => do
    match ← self.eval scope n with
    | .error f => return .error f
    | v => return .ok v

theorem argument_identifier (scope : Scope) {t : Token} (h : t.type = .identifier) :
    argument self scope (.leaf t) = fun s => .done (resolve scope t s) s := by
  simp only [argument, h]
  rfl

theorem argument_error (scope : Scope) {t : Token} (h : t.type = .error) {f : Fault}
    (hf : t.value = .error f) : argument self scope (.leaf t) = pure (.error f) := by
  simp [argument, h, hf]

theorem argument_invalid (scope : Scope) {t : Token} (h : t.type = .error)
    (hf : ∀ f, t.value ≠ .error f) :
    argument self scope (.leaf t) =
      pure (.error (.placed .invalidToken t.pos ["invalid token ", t.text.quote])) := by
  simp [argument, h]

theorem argument_literal (scope : Scope) {t : Token} (h : t.type ≠ .identifier)
    (h' : t.type ≠ .error) : argument self scope (.leaf t) = pure (.ok t.value.orNil) := by
  unfold argument
  cases ht : t.type <;> simp_all

/-- An argument that is no leaf is evaluated. -/
theorem argument_tree (scope : Scope) {n : Node} (hn : ∀ t, n ≠ .leaf t) :
    argument self scope n =
      (do
        match ← self.eval scope n with
        | .error f => return .error f
        | v => return .ok v) := by
  cases n with
  | leaf t => exact absurd rfl (hn t)
  | _ => rfl

/-- The values of the arguments from left to right, up to the first fault. -/
def arguments (scope : Scope) : List Node → Action σ (Checked (List Value))
  | [] => pure (.ok [])
  | n :: ns => do
    match ← argument self scope n with
    | .error f => return .error f
    | .ok v =>
      match ← arguments scope ns with
      | .error f => return .error f
      | .ok vs => return .ok (v :: vs)

/-! ### Calls -/

/-- Evaluates the trees of a body in order, up to the first fault; `last` is the value so far. -/
def body (scope : Scope) : Value → List Node → Action σ Value
  | last, [] => pure last
  | _, n :: ns => do
    match ← self.eval scope n with
    | .error f => return .error f
    | v => body scope v ns

/-- Calls the function `ref`, which is written in the language. -/
def callClosure (ref : Nat) (c : Closure) (args : List Value) : Action σ Value :=
  if args.length < c.params.length ∨ (c.rest.isNone ∧ c.params.length < args.length) then do
    let L ← Action.legend M.host
    return .fail .arity
      [L.functionText ref, " expects ", Text.ofNat c.params.length, " arguments, got ",
        Text.ofNat args.length]
  else do
    let scope ← Action.ofExcept (c.scope.insertEach args 0 c.params)
    match c.rest with
    | none => body self scope .nil c.body
    | some name =>
      let more ← Action.ofExcept (Slice.after args c.params.length)
      let more ← Action.stamped (.list 0 more)
      body self (scope.insert name more) .nil c.body

/-- Runs a script of the embedding program. -/
def script : Script σ Value → Action σ Value
  | .done state v => do
    Action.modify fun s => { s with host := state }
    Action.settled v
  | .raise state alarm => do
    Action.modify fun s => { s with host := state }
    Action.raise alarm
  | .call state f args next => do
    Action.modify fun s => { s with host := state }
    let v ← self.call f args
    fun s => script (next s.host v) s
  | .print state v next => do
    Action.modify fun s => { s with host := state }
    let L ← Action.legend M.host
    match v.text L with
    | .ok t => script (next t)
    | .error message => Action.raise (.native message)
  | .nameOf state f next => do
    Action.modify fun s => { s with host := state }
    let L ← Action.legend M.host
    script (next (L.functionName f))

/-- Binds a name in the module to the only argument. -/
def callBinder (name : Text) (args : List Value) : Action σ Value :=
  if args.length ≠ 1 then
    return .fail .arity ["def expects 1 value, got ", Text.ofNat args.length]
  else do
    let v ← Action.ofExcept (Slice.item args 0)
    Action.modify fun s => s.define name v
    return v.orNil

/-- Calls a function. No value counts as `nil`. -/
def call (ref : Nat) (args : List Value) : Action σ Value := do
  let s ← Action.store
  match s.functions[ref]? with
  | none => Action.raise (.native missingValue)
  | some f =>
    match f.body with
    | .builtin b =>
      let v ← Action.ofExcept (b.apply (s.legend M.host) args)
      if b.builds then Action.stamped v else return v.orNil
    | .closure c =>
      let v ← callClosure M self ref c args
      return v.orNil
    | .binder name => callBinder name args
    | .native name =>
      let v ← script M self (M.host.native name args s.host)
      return v.orNil

/-- Applies a keyword: looks it up in its first argument, the second one being the default. -/
def getKeyword (keyword : Value) (args : List Value) (p : Position) : Action σ Value :=
  if args.length = 1 then do
    let coll ← Action.ofExcept (Slice.item args 0)
    let v ← call M self M.getter [coll, keyword]
    return v.located p
  else if args.length = 2 then do
    let coll ← Action.ofExcept (Slice.item args 0)
    let default ← Action.ofExcept (Slice.item args 1)
    let v ← call M self M.getter [coll, keyword, default]
    return v.located p
  else do
    let L ← Action.legend M.host
    let shown : Text := match keyword with
      | .absent => "%!s(<nil>)"
      | v => Value.shown (v.text L)
    return .error (.placed .arity p
      ["keyword ", shown, " expects 1 or 2 arguments, got ", Text.ofNat args.length])

/-- Applies a value to arguments, for a form at `p`. -/
def apply (f : Value) (args : List Value) (p : Position) : Action σ Value :=
  match f with
  | .error f => pure (.error f)
  | .keyword k => getKeyword M self (.keyword k) args p
  | .function ref => do
    let v ← call M self ref args
    return v.located p
  | f => do
    let L ← Action.legend M.host
    let t ← Action.ofExcept (f.described L)
    return .error (.placed .notAFunction p [t, " is not a function"])

/-! ### Methods -/

/-- Calls a method of an object, or gives `none` if the object has no exported method of that name.
The validator sees the arguments first, and a fault of it is the result. -/
def method (name : Text) (o : Object) (args : List Value) : Action σ (Option Value) :=
  match M.host.lookup o name with
  | none => pure none
  | some m =>
    match m.exported, m.body with
    | true, some run => do
      let L ← Action.legend M.host
      let refusal ← match M.validator with
        | none => pure none
        | some v => Action.ofExcept (v.validate L m.rules args)
      match refusal with
      | some f => return some (.error f)
      | none =>
        let s ← Action.store
        let v ← script M self (run L args s.host)
        return some v.orNil
    | _, _ => pure none

/-- What the validator finds wrong with the arguments of a method, if anything. -/
def refusal (L : Legend) (rules : Rules) (args : List Value) : Except Text (Option Fault) :=
  match M.validator with
  | none => .ok none
  | some v => v.validate L rules args

/-- A method that is missing, not exported or without a body is not called. -/
theorem method_unavailable {name : Text} {o : Object}
    (h : ∀ found run, ¬ M.host.Offers o name found run) (args : List Value) :
    method M self name o args = pure none := by
  unfold method
  cases hfound : M.host.lookup o name with
  | none => rfl
  | some found =>
    cases he : found.exported with
    | false => simp only [he]
    | true =>
      cases hb : found.body with
      | none => simp only [he, hb]
      | some run => exact absurd ⟨hfound, he, hb⟩ (h found run)

/-- Any other method is called once the validator has nothing against it. -/
theorem method_available {name : Text} {o : Object} {found : Host.Found σ}
    {run : Legend → List Value → σ → Script σ Value} (h : M.host.Offers o name found run)
    (args : List Value) (s : Store σ) :
    method M self name o args s =
      match M.refusal (s.legend M.host) found.rules args with
      | .error message => .raised (.native message) s
      | .ok (some f) => .done (some (.error f)) s
      | .ok none =>
        (do
          let v ← script M self (run (s.legend M.host) args s.host)
          return some v.orNil) s := by
  simp only [method, h.found, h.exported, h.body, refusal, bind, Action.bind, Action.legend]
  cases M.validator with
  | none => rfl
  | some v =>
    cases hv : v.validate (s.legend M.host) found.rules args with
    | error message => simp only [Action.ofExcept, hv]; rfl
    | ok r => cases r <;> simp only [Action.ofExcept, hv] <;> rfl

/-- Evaluates a method call with its arguments, the receiver first. -/
def methodCall (t : Token) (args : List Value) (p : Position) : Action σ Value := do
  let name := t.text.drop M.effectiveSigil.length
  if args.length = 0 then return .error (.placed .noReceiver p [t.text, " needs a receiver"])
  else
    let receiver ← Action.ofExcept (Slice.item args 0)
    match receiver with
    | .object o =>
      let args ← Action.ofExcept (Slice.after args 1)
      match ← method M self name o args with
      | some v => return v.located p
      | none =>
        let L ← Action.legend M.host
        let shown := Value.shown ((Value.object o).text L)
        return .error (.placed .notExported p [name, " is not an exported method of ", shown])
    | receiver =>
      let L ← Action.legend M.host
      let t ← Action.ofExcept (receiver.described L)
      return .error (.placed .notExported p [name, " is not an exported method of ", t])

/-! ### Special forms -/

/-- A fault that a compilation ended with becomes a leaf, any other alarm is raised. -/
def compiled (x : Compiled α) (k : α → Action σ Node) : Action σ Node :=
  match x with
  | .ok a => k a
  | .error (.fault f) => pure (.ofFault f)
  | .error a => Action.raise a

/-- The text of a tree in a message. -/
def mention (n : Node) : Action σ Text := do
  let L ← Action.legend M.host
  Action.ofExcept (n.text L)

/-- `(if test then [else])` becomes the chosen branch. -/
def expandConditional (scope : Scope) (operands : List Node) : Action σ Node :=
  if operands.length ≠ 2 ∧ operands.length ≠ 3 then
    return .malformed (Node.positionOfAll operands)
      ["if expects a test, a consequent and an optional alternative"]
  else do
    let test ← Action.ofExcept (Slice.item operands 0)
    match ← self.eval scope test with
    | .error f => return .ofFault f
    | v =>
      if v.isTruthy then Action.ofExcept (Slice.item operands 1)
      else if operands.length = 2 then return .ofValue .nil test.position
      else Action.ofExcept (Slice.item operands 2)

/-- The call of a new binder of a name: what definitions become. -/
def binding (name : Token) (value : Node) : Action σ Node := do
  let ref ← Action.update fun s => s.addFunction ⟨"def", .binder name.text⟩
  return .form [.ofValue (.function ref) name.pos, value]

/-- `(def name value)` becomes the call of a binder. -/
def expandDefine (operands : List Node) : Action σ Node :=
  if operands.length ≠ 2 then
    return .malformed (Node.positionOfAll operands) ["def expects a name and a value"]
  else do
    let target ← Action.ofExcept (Slice.item operands 0)
    match target.identifier? with
    | some name =>
      let value ← Action.ofExcept (Slice.item operands 1)
      binding name value
    | none =>
      let t ← mention M target
      return .malformed target.position ["def expects an identifier, got ", t]

/-- The name of the list of all further arguments: the only parameter after the mark at `p`. -/
def restParameter (p : Position) (after : List Node) : Compiled (Option Text) :=
  if after.length ≠ 1 then .fail p ["fn expects exactly one parameter after &"]
  else do
    let n ← Compiled.ofExcept (Slice.item after 0)
    match n.identifier? with
    | some t => return if t.text = [] then none else some t.text
    | none => .fail p ["fn rest parameter is not an identifier"]

/-- The parameters of a function with a parameter list at `p`: their names and the name of the list
of all further arguments. -/
def parameters (L : Legend) (p : Position) : List Node → Compiled (List Text × Option Text)
  | [] => .ok ([], none)
  | n :: ns =>
    match n.identifier? with
    | none => do
      let t ← n.mention L
      .fail p ["fn parameter ", t, " is not an identifier"]
    | some t =>
      if t.text = "&" then do
        let rest ← restParameter t.pos ns
        return ([], rest)
      else do
        let (names, rest) ← parameters L p ns
        return (t.text :: names, rest)

/-- `(fn (param ... [& rest]) tree ...)` becomes a new function. -/
def expandLambda (scope : Scope) (operands : List Node) : Action σ Node :=
  if operands.length < 1 then return .malformed .unknown ["fn expects a parameter list"]
  else do
    let n ← Action.ofExcept (Slice.item operands 0)
    match n with
    | .form params =>
      let p := Node.positionOfAll params
      let L ← Action.legend M.host
      compiled (parameters L p params) fun (names, rest) => do
        let trees ← Action.ofExcept (Slice.after operands 1)
        let ref ← Action.update fun s => s.addFunction ⟨[], .closure ⟨names, rest, trees, scope⟩⟩
        return .ofValue (.function ref) p
    | n =>
      let t ← mention M n
      return .malformed n.position ["fn expects a parameter list, got ", t]

/-- Whether the test of a clause is the one that always holds. -/
def isElse : Node → Bool
  | .leaf t =>
    (t.type == .identifier && t.text == Text.ofString "else") ||
      (t.type == .keyword && t.text == Text.ofString ":else")
  | _ => false

/-- The clauses of a `cond` as nested conditionals around `otherwise`; the last malformed clause is
the one that is reported. -/
def clauses (otherwise : Node) : List Node → Except Text (Except Node Node)
  | [] => .ok (.ok otherwise)
  | c :: cs => do
    match ← clauses otherwise cs with
    | .error n => return .error n
    | .ok others =>
      let p := c.position
      let trees := c.children
      if trees.length = 0 then
        return .error (.malformed p ["cond clause must be a non-empty list"])
      else
        let more ← Slice.after trees 1
        let test ← Slice.item trees 0
        let chosen : Node := .form (.ofValue (.function Store.doRef) p :: more)
        if isElse test then
          if cs.isEmpty then return .ok chosen
          else return .error (.malformed p ["else is not the last cond clause"])
        else
          return .ok (.form [.ofValue (.transformer Store.conditionalRef) p, test, chosen, others])

/-- `(cond (test tree ...) ...)` becomes nested conditionals. -/
def expandCond (operands : List Node) : Action σ Node := do
  match ← Action.ofExcept (clauses (.ofValue .nil (Node.positionOfAll operands)) operands) with
  | .ok n => return n
  | .error n => return n

/-- `(quote tree)` becomes the tree as data. -/
def expandQuote (operands : List Node) : Action σ Node :=
  if operands.length ≠ 1 then
    return .malformed (Node.positionOfAll operands)
      ["quote expects 1 argument, got ", Text.ofNat operands.length]
  else do
    let n ← Action.ofExcept (Slice.item operands 0)
    let v ← Action.settled n.datum
    return .ofValue v n.position

/-- `(defsyntax name spec)` becomes the call of a binder with a new transformer. -/
def expandDefineForm (operands : List Node) : Action σ Node :=
  if operands.length ≠ 2 then
    return .malformed (Node.positionOfAll operands)
      ["defsyntax expects a name and a syntax-rules form"]
  else do
    let target ← Action.ofExcept (Slice.item operands 0)
    match target.identifier? with
    | some name =>
      let L ← Action.legend M.host
      let spec ← Action.ofExcept (Slice.item operands 1)
      compiled (Transformation.compile L name.text spec) fun x => do
        let ref ← Action.update fun s => s.addTransformer ⟨name.text, .userDefined x⟩
        binding name (.ofValue (.transformer ref) name.pos)
    | none =>
      let t ← mention M target
      return .malformed target.position ["defsyntax expects an identifier, got ", t]

/-- The value of the last tree, each one being evaluated in turn. -/
def eagerly (scope : Scope) : Value → List Node → Action σ Value
  | last, [] => pure last
  | _, n :: ns => do
    let v ← self.eval scope n
    eagerly scope v ns

/-- What a form with a transformer as its head is replaced by. -/
def expand (x : Transformer) (operands : List Node) (scope : Scope) : Action σ Node :=
  match x.expander with
  | .special .conditional => expandConditional self scope operands
  | .special .define => expandDefine M operands
  | .special .lambda => expandLambda M scope operands
  | .special .cond => expandCond operands
  | .special .quote => expandQuote operands
  | .special .defineForm => expandDefineForm M operands
  | .userDefined t => do
    let L ← Action.legend M.host
    Action.ofExcept (t.rewrite L operands)
  | .lastOperand => pure (operands.getLast?.getD .absent)
  | .eager => do
    let v ← eagerly self scope .nil operands
    return .leaf ⟨.literal, .unknown, [], v⟩

/-! ### Forms and trees -/

/-- What a leaf in head position stands for. Keywords and methods stand for themselves. -/
def headValue (scope : Scope) (t : Token) (s : Store σ) : Checked Value :=
  if t.type = .keyword ∨ M.isMethodName t then .ok .absent
  else if t.type = .identifier then resolve scope t s
  else .ok t.value

/-- Evaluates a form whose head is a leaf that stands for `f`, after the arguments. -/
def applyLeaf (t : Token) (f : Value) (args : List Value) (p : Position) : Action σ Value :=
  if t.type = .keyword then getKeyword M self t.value args p
  else if M.isMethodName t then methodCall M self t args p
  else apply M self f args p

/-- Evaluates a form. A head that stands for a transformer sees its operands unevaluated; otherwise
the arguments are evaluated first, and then the head if it is itself a form. -/
def form (scope : Scope) (head : Node) (operands : List Node) : Action σ Value := do
  let p := (Node.form (head :: operands)).position
  match head with
  | .leaf t =>
    let s ← Action.store
    match M.headValue scope t s with
    | .error f => return .error f
    | .ok (.transformer ref) =>
      match s.transformers[ref]? with
      | none => Action.raise (.native missingValue)
      | some x =>
        let n ← expand M self x operands scope
        self.eval scope n
    | .ok f =>
      match ← arguments self scope operands with
      | .error f => return .error f
      | .ok args => applyLeaf M self t f args p
  | head =>
    match ← arguments self scope operands with
    | .error f => return .error f
    | .ok args =>
      match ← self.eval scope head with
      | .error f => return .error f
      | f => apply M self f args p

/-- A head that stands for nothing ends the form at once. -/
theorem form_unresolved {scope : Scope} {t : Token} {s : Store σ} {f : Fault}
    (h : M.headValue scope t s = .error f) (operands : List Node) :
    form M self scope (.leaf t) operands s = .done (.error f) s := by
  simp only [form, bind, Action.bind, Action.store, h]
  rfl

/-- A head that stands for a transformer replaces the form. -/
theorem form_transformer {scope : Scope} {t : Token} {s : Store σ} {ref : Nat}
    (h : M.headValue scope t s = .ok (.transformer ref)) (operands : List Node) :
    form M self scope (.leaf t) operands s =
      match s.transformers[ref]? with
      | none => .raised (.native missingValue) s
      | some x =>
        (do
          let n ← expand M self x operands scope
          self.eval scope n) s := by
  simp only [form, bind, Action.bind, Action.store, h]
  cases s.transformers[ref]? <;> rfl

/-- Any other leaf is applied to the arguments. -/
theorem form_plain {scope : Scope} {t : Token} {s : Store σ} {f : Value}
    (h : M.headValue scope t s = .ok f) (hf : ∀ ref, f ≠ .transformer ref)
    (operands : List Node) :
    form M self scope (.leaf t) operands s =
      (do
        match ← arguments self scope operands with
        | .error f => return Value.error f
        | .ok args =>
          applyLeaf M self t f args (Node.form (.leaf t :: operands)).position) s := by
  simp only [form, bind, Action.bind, Action.store, h]

/-- A head that is no leaf is evaluated after the arguments. -/
theorem form_compound {scope : Scope} {head : Node} (h : ∀ t, head ≠ .leaf t)
    (operands : List Node) :
    form M self scope head operands =
      (do
        match ← arguments self scope operands with
        | .error f => return Value.error f
        | .ok args =>
          match ← self.eval scope head with
          | .error f => return Value.error f
          | f => apply M self f args (Node.form (head :: operands)).position) := by
  cases head with
  | leaf t => exact absurd rfl (h t)
  | _ => rfl

/-- Evaluates a tree. A leaf alone is evaluated as the argument of `identity`. -/
def eval (scope : Scope) : Node → Action σ Value
  | .absent => pure .nil
  | .form items =>
    if items.length = 0 then pure .nil
    else do
      let head ← Action.ofExcept (Slice.item items 0)
      let operands ← Action.ofExcept (Slice.after items 1)
      form M self scope head operands
  | .leaf t => form M self scope (.ofValue (.function Store.identityRef) t.pos) [.leaf t]

/-- A form with a head is evaluated by it. -/
theorem eval_form (scope : Scope) (head : Node) (operands : List Node) :
    eval M self scope (.form (head :: operands)) = form M self scope head operands := rfl

/-- Evaluation that may nest `depth` deep. -/
def recur : Nat → Recur σ
  | 0 => ⟨fun _ _ => Action.exhausted, fun _ _ => Action.exhausted⟩
  | depth + 1 =>
    ⟨fun scope n s => M.eval (recur depth) scope n s,
      fun ref args s => M.call (recur depth) ref args s⟩

end Machine

end LittleLisp
