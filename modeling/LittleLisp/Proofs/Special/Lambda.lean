/-
# Functions and their parameters

`(fn (param ... [& rest]) tree ...)` makes a function. A call of it, whenever and from wherever it
is made, evaluates the trees in a scope of its own: the scope the function was made in, with the
parameters bound to the arguments.

A parameter list that is not of this form is refused, and nothing is evaluated.

Key definitions: `ParameterList`, `CallScope`, `Machine.Applies`.
Key theorems: `Machine.Applies.eval`, `Machine.lambda_binds_parameters`.
-/
import LittleLisp.Proofs.Prelude.Forms
import LittleLisp.Proofs.Special

namespace LittleLisp

variable {σ : Type}

/-! ### Bindings of many names -/

namespace Bindings

variable {α : Type} {name : Text}

theorem find?_insertAll_of_notMem : ∀ {names : List Text} (as : List α) (bs : Bindings α),
    name ∉ names → find? name (insertAll names as bs) = find? name bs
  | [], _, _, _ => rfl
  | _ :: _, [], _, _ => rfl
  | n :: ns, a :: as, bs, h => by
    obtain ⟨hn, hns⟩ := not_or.mp (mt List.mem_cons.mpr h)
    rw [insertAll, find?_insertAll_of_notMem as _ hns, find?_insert_of_ne hn]

/-- The last of equal names wins. -/
theorem find?_insertAll_last : ∀ {names : List Text} {as : List α} (bs : Bindings α) {i : Nat} {a : α},
    names[i]? = some name → (∀ j, i < j → names[j]? ≠ some name) → as[i]? = some a →
    find? name (insertAll names as bs) = some a
  | [], _, _, _, _, hname, _, _ => by simp at hname
  | _ :: _, [], _, _, _, _, _, ha => by simp at ha
  | n :: ns, b :: as, bs, 0, a, hname, hlast, ha => by
    obtain rfl : n = name := by simpa using hname
    obtain rfl : b = a := by simpa using ha
    have hns : n ∉ ns := by
      intro hmem
      obtain ⟨j, hj⟩ := List.mem_iff_getElem?.mp hmem
      exact hlast (j + 1) (by omega) (by simpa using hj)
    rw [insertAll, find?_insertAll_of_notMem as _ hns, find?_insert_self]
  | n :: ns, b :: as, bs, i + 1, a, hname, hlast, ha => by
    rw [insertAll]
    refine find?_insertAll_last _ (by simpa using hname) (fun j hj => ?_) (by simpa using ha)
    simpa using hlast (j + 1) (by omega)

end Bindings

/-! ### Parameter lists -/

/-- A parameter list: names other than `&`, and then perhaps `&` with the name of the list of all
further arguments. -/
inductive ParameterList : List Node → List Text → Option Text → Prop where
  | nil : ParameterList [] [] none
  | rest {mark r : Token} (hmark : mark.type = .identifier) (hand : mark.text = "&")
      (hr : r.type = .identifier) : ParameterList [.leaf mark, .leaf r] [] (some r.text)
  | cons {t : Token} {ns : List Node} {names : List Text} {rest : Option Text}
      (ht : t.type = .identifier) (hname : t.text ≠ "&") (h : ParameterList ns names rest) :
      ParameterList (.leaf t :: ns) (t.text :: names) rest

/-- The first tree of a parameter list that is no identifier, if no `&` stands before it. -/
inductive Unnamed : List Node → Node → Prop where
  | here {n : Node} {ns : List Node} (hn : n.identifier? = none) : Unnamed (n :: ns) n
  | later {t : Token} {ns : List Node} {n : Node} (ht : t.type = .identifier)
      (hname : t.text ≠ "&") (h : Unnamed ns n) : Unnamed (.leaf t :: ns) n

/-- The numbers of parameters and arguments do not go together. -/
def Mismatch (names : List Text) (rest : Option Text) (args : List Value) : Prop :=
  args.length < names.length ∨ rest = none ∧ names.length < args.length

/-- The scope of a call: the name of the rest stands for the list of all further arguments, any
other parameter for its argument, where the last of equal names counts, and any name that is no
parameter for what it stands for outside. -/
structure CallScope (names : List Text) (rest : Option Text) (args : List Value)
    (outer inner : Scope) : Prop where
  further : ∀ r, rest = some r →
    ∃ stamp, inner.find? r = some (.list stamp (args.drop names.length))
  param : ∀ (i : Nat) (name : Text), names[i]? = some name → (∀ j, i < j → names[j]? ≠ some name) →
    rest ≠ some name → ∃ v, args[i]? = some v ∧ inner.find? name = some v
  outside : ∀ name, name ∉ names → rest ≠ some name → inner.find? name = outer.find? name

theorem callScope_insertAll (scope : Scope) {names : List Text} {args : List Value}
    (h : names.length ≤ args.length) :
    CallScope names none args scope (scope.insertAll names args) where
  further := by simp
  param i name hname hlast _ := by
    have hi : i < names.length := (List.getElem?_eq_some_iff.mp hname).1
    have hv : args[i]? = some args[i] := List.getElem?_eq_getElem (by omega)
    exact ⟨_, hv, Bindings.find?_insertAll_last scope hname hlast hv⟩
  outside name hname _ := Bindings.find?_insertAll_of_notMem args scope hname

theorem CallScope.insert {names : List Text} {args : List Value} {outer inner : Scope}
    (h : CallScope names none args outer inner) (r : Text) (stamp : Nat) :
    CallScope names (some r) args outer
      (inner.insert r (.list stamp (args.drop names.length))) where
  further r' hr' := by
    obtain rfl : r = r' := by simpa using hr'
    exact ⟨stamp, Bindings.find?_insert_self r _ inner⟩
  param i name hname hlast hr := by
    have hne : name ≠ r := fun heq => hr (by rw [heq])
    rw [Bindings.find?_insert_of_ne hne]
    exact h.param i name hname hlast (by simp)
  outside name hname hr := by
    have hne : name ≠ r := fun heq => hr (by rw [heq])
    rw [Bindings.find?_insert_of_ne hne]
    exact h.outside name hname (by simp)

section Parameters

variable {L : Legend} {p : Position} {params : List Node} {names : List Text} {rest : Option Text}
  {n : Node}

open Machine (parameters)

/-- An empty name of the rest counts as none. -/
theorem ParameterList.parameters (h : ParameterList params names rest) :
    parameters L p params = .ok (names, rest.filter (· ≠ [])) := by
  induction h with
  | nil => rfl
  | @rest mark r hmark hand hr =>
    rw [Machine.parameters_cons, Node.identifier?_leaf hmark]
    dsimp only
    rw [if_pos hand, Node.identifier?_leaf hr]
    by_cases hempty : r.text = [] <;> simp [Option.filter, hempty]
  | cons ht hname h ih =>
    rw [Machine.parameters_cons, Node.identifier?_leaf ht]
    dsimp only
    rw [if_neg hname, ih]
    rfl

theorem Unnamed.parameters (h : Unnamed params n) :
    parameters L p params = (do
      let t ← n.mention L
      .fail p ["fn parameter ", t, " is not an identifier"]) := by
  induction h with
  | here hn => rw [Machine.parameters_cons, hn]
  | later ht hname h ih =>
    rw [Machine.parameters_cons, Node.identifier?_leaf ht]
    dsimp only
    rw [if_neg hname, ih]
    cases Node.mention L _ <;> rfl

theorem Unnamed.unique {m : Node} (h : Unnamed params n) (h' : Unnamed params m) : m = n := by
  induction h with
  | here hn =>
    cases h' with
    | here _ => rfl
    | later ht _ _ => simp [Node.identifier?_leaf ht] at hn
  | later ht hname h ih =>
    cases h' with
    | here hn => simp [Node.identifier?_leaf ht] at hn
    | later _ _ h' => exact ih h'

/-- Any other list is refused without a tree being named. -/
theorem parameters_misplaced (L : Legend) (p : Position) : ∀ {params : List Node},
    (∀ names rest, ¬ ParameterList params names rest) → (∀ n, ¬ Unnamed params n) →
    ∃ q message, parameters L p params = .fail q message
  | [], hlist, _ => absurd .nil (hlist [] none)
  | n :: ns, hlist, hnamed => by
    rw [Machine.parameters_cons]
    cases hn : n.identifier? with
    | none => exact absurd (.here hn) (hnamed n)
    | some t =>
      obtain ⟨rfl, ht⟩ := Node.identifier_eq_some hn
      dsimp only
      by_cases hand : t.text = "&"
      · rw [if_pos hand]
        split
        · rename_i r
          cases hr : r.identifier? with
          | none => exact ⟨_, _, rfl⟩
          | some r' =>
            obtain ⟨rfl, hr'⟩ := Node.identifier_eq_some hr
            exact absurd (.rest ht hand hr') (hlist [] _)
        · exact ⟨_, _, rfl⟩
      · obtain ⟨q, message, hfail⟩ := parameters_misplaced L p
          (fun names rest h => hlist _ _ (.cons ht hand h))
          fun m h => hnamed m (.later ht hand h)
        rw [if_neg hand, hfail]
        exact ⟨q, message, rfl⟩

end Parameters

namespace Machine

open Outcome (Same)

variable {M : Machine σ} {scope : Scope} {s t : Store σ} {head : Token} {ref : Nat}
  {args : List Value}

/-! ### Calls -/

variable (M ref args) in
/-- A form, in any scope, that calls a function: its operands have values, and its head stands for
the function, or evaluates to it after them. -/
inductive Applies : Scope → Node → Store σ → Store σ → Prop where
  | leaf {scope : Scope} {head : Token} {operands : List Node} {s t : Store σ}
      (hargs : Collected M.unbounded scope operands s args t)
      (hhead : M.headValue scope head s = .ok (.function ref)) :
      Applies scope (.form (.leaf head :: operands)) s t
  | tree {scope : Scope} {head : Node} {operands : List Node} {s t u : Store σ}
      (hargs : Collected M.unbounded scope operands s args t) (hn : ∀ t, head ≠ .leaf t)
      (hhead : M.unbounded.eval scope head t = .done (.function ref) u) :
      Applies scope (.form (head :: operands)) s u

/-- The value of such a form is the value of the call. -/
theorem Applies.eval {n : Node} (h : Applies M ref args scope n s t) :
    Same (M.unbounded.eval scope n s)
      ((do
        let v ← M.unbounded.call ref args
        return v.located n.position) t) := by
  cases h with
  | leaf hargs hhead =>
    refine (unbounded_called hhead _).trans (.of_eq ?_)
    exact Action.bind_done (arguments_of_collected hargs)
  | tree hargs hn hhead =>
    rename_i head operands u
    refine (M.unbounded_eval _ _ _).trans ?_
    change Same (form M M.unbounded scope head operands s) _
    rw [form_compound M _ hn, Action.bind_done (arguments_of_collected hargs)]
    dsimp only
    rw [Action.bind_done hhead]
    exact Action.same_bind (M.unbounded_call ref args t).symm fun v w _ => .refl _

/-! ### Functions of the language -/

section Closures

variable {f : Function} {c : Closure}

theorem mismatch_iff : Mismatch c.params c.rest args ↔
    args.length < c.params.length ∨ c.rest.isNone ∧ c.params.length < args.length := by
  simp [Mismatch]

/-- A wrong number of arguments is found before anything is evaluated. -/
theorem unbounded_call_mismatch (hf : t.functions[ref]? = some f) (hbody : f.body = .closure c)
    (h : Mismatch c.params c.rest args) :
    ∃ fault, M.unbounded.call ref args t = .done (.error fault) t ∧ fault.kind = .arity := by
  have hcall : ∃ fault, M.call M.unbounded ref args t = .done (.error fault) t ∧
      fault.kind = .arity := by
    simp only [call, bind, Action.bind, Action.store, hf, hbody, callClosure]
    rw [if_pos (mismatch_iff.mp h)]
    exact ⟨_, rfl, rfl⟩
  obtain ⟨fault, hdone, hkind⟩ := hcall
  have hsame := (M.unbounded_call ref args t).trans (.of_eq hdone)
  exact ⟨fault, Outcome.same_done_iff.mp hsame, hkind⟩

/-- No tree and some trees: a body has a value. -/
theorem body_nil_orNil (trees : List Node) (s : Store σ) :
    (do
      let v ← body M.unbounded scope .nil trees
      return v.orNil : Action σ Value) s = body M.unbounded scope .nil trees s := by
  cases trees with
  | nil => rfl
  | cons n ns => exact body_orNil n ns .nil s

/-- With the right number of arguments, the body is evaluated in the scope of the call. A list of
further arguments is a new list. -/
theorem unbounded_call_closure (hf : t.functions[ref]? = some f) (hbody : f.body = .closure c)
    (h : ¬ Mismatch c.params c.rest args) :
    ∃ inner stamps, CallScope c.params c.rest args c.scope inner ∧
      Same (M.unbounded.call ref args t)
        (body M.unbounded inner .nil c.body { t with stamps }) := by
  have hlength : c.params.length ≤ args.length := by
    by_contra hless
    exact h (Or.inl (by omega))
  have hscope := callScope_insertAll c.scope hlength
  have hcall : M.call M.unbounded ref args t = (do
      let v ← callClosure M M.unbounded ref c args
      return v.orNil : Action σ Value) t := by
    simp only [call, bind, Action.bind, Action.store, hf, hbody]
  -- without a rest the scope is complete; otherwise making its list takes a step, and a stamp
  rw [callClosure_eq, if_neg (mt mismatch_iff.mpr h)] at hcall
  cases hrest : c.rest with
  | none =>
    rw [hrest] at hcall
    refine ⟨c.scope.insertAll c.params args, t.stamps, hscope, ?_⟩
    calc
      Same (M.unbounded.call ref args t) (M.call M.unbounded ref args t) :=
        M.unbounded_call ref args t
      Same _ _ := .of_eq (hcall.trans (body_nil_orNil c.body t))
  | some r =>
    obtain ⟨stamp, hstamp⟩ := Action.stamped_list (args.drop c.params.length) t
    rw [hrest] at hcall
    dsimp only at hcall
    rw [Action.bind_assoc, Action.bind_done hstamp] at hcall
    refine ⟨_, (t.made (args.drop c.params.length)).stamps, hscope.insert r stamp, ?_⟩
    calc
      Same (M.unbounded.call ref args t) (M.call M.unbounded ref args t) :=
        M.unbounded_call ref args t
      Same _ _ := .of_eq (hcall.trans (body_nil_orNil c.body _))

end Closures

/-! ### The form that makes a function -/

variable {params : List Node} {x : Transformer}

theorem expand_lambda (hx : x.expander = .special .lambda) {names : List Text}
    {rest : Option Text} (h : ParameterList params names rest) (hrest : rest ≠ some [])
    (trees : List Node) :
    expand M M.unbounded x (.form params :: trees) scope s =
      .done (.ofValue (.function s.functions.size) (Node.positionOfAll params))
        (s.addFunction ⟨[], .closure ⟨names, rest, trees, scope⟩⟩).2 := by
  have hnames : parameters (s.legend M.host) (Node.positionOfAll params) params =
      .ok (names, rest) := by
    rw [h.parameters]
    cases rest with
    | none => rfl
    | some r =>
      have hr : r ≠ [] := fun hempty => hrest (by rw [hempty])
      simp [Option.filter, hr]
  simp only [expand, hx, expandLambda_eq, bind, Action.bind, Action.legend, hnames, compiled]
  rfl

/-- A tree that should be a name is named by the refusal. -/
theorem expand_unnamed (hx : x.expander = .special .lambda) {n : Node} (h : Unnamed params n)
    (trees : List Node) :
    expand M M.unbounded x (.form params :: trees) scope s = (do
      let text ← mention M n
      return Node.malformed (Node.positionOfAll params)
        ["fn parameter ", text, " is not an identifier"]) s := by
  simp only [expand, hx, expandLambda_eq, bind, Action.bind, Action.legend, h.parameters, mention,
    Node.mention]
  cases n.text (s.legend M.host) with
  | ok text => rfl
  | error reason => rfl

theorem expand_misplaced (hx : x.expander = .special .lambda) {q : Position} {message : List Text}
    (hfail : parameters (s.legend M.host) (Node.positionOfAll params) params = .fail q message)
    (trees : List Node) :
    expand M M.unbounded x (.form params :: trees) scope s = .done (.malformed q message) s := by
  simp only [expand, hx, expandLambda_eq, bind, Action.bind, Action.legend, hfail]
  rfl

/-- A form with a parameter list evaluates to a new function. -/
theorem Means.lambda (hfn : M.Means scope s (.special .lambda) head) (hs : s.Equipped)
    {names : List Text} {rest : Option Text} (h : ParameterList params names rest)
    (hrest : rest ≠ some []) (trees : List Node) :
    M.unbounded.eval scope (.form (.leaf head :: .form params :: trees)) s =
      .done (.function s.functions.size)
        (s.addFunction ⟨[], .closure ⟨names, rest, trees, scope⟩⟩).2 := by
  have hreplaced := hfn.replaced fun x hx => expand_lambda hx h hrest trees
  have hidentity := ((s.extends_addFunction ⟨[], .closure ⟨names, rest, trees, scope⟩⟩).builtin?
    hs.identity)
  refine Outcome.same_done_iff.mp (hreplaced.trans (.of_eq ?_))
  exact unbounded_literal hidentity (by simp) (by simp) rfl

/-- A form with anything else in the place of its parameters is refused. -/
theorem Means.lambda_refused (hfn : M.Means scope s (.special .lambda) head)
    (hlist : ∀ names rest, ¬ ParameterList params names rest) (trees : List Node) :
    Refused (s.legend M.host) (Unnamed params) s
      (M.unbounded.eval scope (.form (.leaf head :: .form params :: trees)) s) := by
  by_cases hnamed : ∃ n, Unnamed params n
  · obtain ⟨n, hn⟩ := hnamed
    have honly (m : Node) : Unnamed params m ↔ m = n :=
      ⟨hn.unique, fun heq => by rwa [heq]⟩
    exact hfn.refused_naming honly _ _ fun x hx => expand_unnamed hx hn trees
  · rw [not_exists] at hnamed
    obtain ⟨q, message, hfail⟩ := parameters_misplaced (s.legend M.host)
      (Node.positionOfAll params) hlist hnamed
    exact hfn.refused hnamed q message fun x hx => expand_misplaced hx hfail trees

/-- A form without a list in the place of its parameters is refused. -/
theorem Means.lambda_unlisted (hfn : M.Means scope s (.special .lambda) head)
    {operands : List Node} (h : ∀ params trees, operands ≠ .form params :: trees) :
    Refused (s.legend M.host) (fun n => operands.head? = some n) s
      (M.unbounded.eval scope (.form (.leaf head :: operands)) s) := by
  cases operands with
  | nil =>
    refine hfn.refused (by simp) .unknown ["fn expects a parameter list"] fun x hx => ?_
    simp only [expand, hx, expandLambda_eq]
    rfl
  | cons n trees =>
    have honly (m : Node) : (n :: trees).head? = some m ↔ m = n := by simp [eq_comm]
    refine hfn.refused_naming honly n.position
      (fun text => ["fn expects a parameter list, got ", text]) fun x hx => ?_
    cases n with
    | form params => exact absurd rfl (h params trees)
    | absent => simp only [expand, hx, expandLambda_eq]
    | leaf t => simp only [expand, hx, expandLambda_eq]

/-- **A function binds exactly its parameters.** A form with a parameter list makes a new function.
A call of it at any later moment fails if the number of arguments is wrong, and otherwise evaluates
the body in the scope of the call; and a form in any scope that calls it has the value of the call.
A form with any other parameter list is refused. -/
theorem lambda_binds_parameters (M : Machine σ) (scope : Scope) (s : Store σ) (hs : s.Equipped)
    (head : Token) (hfn : M.Means scope s (.special .lambda) head) :
    (∀ params names rest trees, ParameterList params names rest → rest ≠ some [] →
      ∃ ref made,
        M.unbounded.eval scope (.form (.leaf head :: .form params :: trees)) s =
          .done (.function ref) made ∧
        s.functions[ref]? = none ∧ s.Extends [] made ∧
        ∀ (t : Store σ) (args : List Value), made.Grows t →
          (Mismatch names rest args → ∃ fault,
            M.unbounded.call ref args t = .done (.error fault) t ∧ fault.kind = .arity) ∧
          (¬ Mismatch names rest args → ∃ inner stamps, CallScope names rest args scope inner ∧
            Same (M.unbounded.call ref args t)
              (body M.unbounded inner .nil trees { t with stamps })) ∧
          ∀ (caller : Scope) (n : Node) (u : Store σ), Applies M ref args caller n u t →
            Same (M.unbounded.eval caller n u)
              ((do
                let v ← M.unbounded.call ref args
                return v.located n.position) t)) ∧
    (∀ params trees, (∀ names rest, ¬ ParameterList params names rest) →
      Refused (s.legend M.host) (Unnamed params) s
        (M.unbounded.eval scope (.form (.leaf head :: .form params :: trees)) s)) ∧
    ∀ operands : List Node, (∀ params trees, operands ≠ .form params :: trees) →
      Refused (s.legend M.host) (fun n => operands.head? = some n) s
        (M.unbounded.eval scope (.form (.leaf head :: operands)) s) := by
  refine ⟨fun params names rest trees h hrest => ?_, fun params trees h =>
    hfn.lambda_refused h trees, fun operands h => hfn.lambda_unlisted h⟩
  have hmade := hfn.lambda hs h hrest trees
  refine ⟨_, _, hmade, by simp, s.extends_addFunction _, fun t args ht => ?_⟩
  have hnew : (s.addFunction ⟨[], .closure ⟨names, rest, trees, scope⟩⟩).2.functions[
      s.functions.size]? = some ⟨[], .closure ⟨names, rest, trees, scope⟩⟩ := by
    simp [Store.addFunction]
  obtain ⟨f, hf, hbody⟩ := ht.bodies _ _ hnew
  exact ⟨unbounded_call_mismatch hf hbody, unbounded_call_closure hf hbody,
    fun caller n u happlies => happlies.eval⟩

end Machine

/-- `(fn (x & r) r)` is a function that called with `:a`, `:b` and `:c` gives a list of the last two
of them. -/
theorem Session.lambda_binds_parameters_of_rest :
    let M := (start .default .none ()).machine
    let s := Store.withGlobals "user" ()
    let word (text : Text) (column : Nat) : Token :=
      ⟨.identifier, ⟨"user", 1, column⟩, text, .undefined text⟩
    ∃ ref t stamp u,
      M.unbounded.eval [] (.form [.leaf (word "fn" 2),
        .form [.leaf (word "x" 6), .leaf (word "&" 8), .leaf (word "r" 10)],
        .leaf (word "r" 13)]) s = .done (.function ref) t ∧
      M.unbounded.call ref [.keyword ":a", .keyword ":b", .keyword ":c"] t =
        .done (.list stamp [.keyword ":b", .keyword ":c"]) u := by
  intro M s word
  have hs : s.Equipped := Store.equipped_withGlobals "user" ()
  have hmeans : M.Means [] s (.special .lambda) (word "fn" 2) := by
    have hname : M.Heads [] "fn" (word "fn" 2) :=
      Machine.heads_of_identifier (by decide) (by decide) rfl rfl rfl
    exact hname.means ((Store.standard_withGlobals "user" ()).specials .lambda)
  have hlist : ParameterList [.leaf (word "x" 6), .leaf (word "&" 8), .leaf (word "r" 10)]
      ["x"] (some "r") := .cons rfl (by decide) (.rest rfl rfl rfl)
  obtain ⟨ref, t, hmade, -, hext, hcalls⟩ :=
    (Machine.lambda_binds_parameters M [] s hs _ hmeans).1 _ _ _ [.leaf (word "r" 13)] hlist
      (by decide)
  have harity : ¬ Mismatch ["x"] (some "r") [.keyword ":a", .keyword ":b", .keyword ":c"] := by
    simp [Mismatch]
  obtain ⟨inner, stamps, hscope, hcall⟩ := (hcalls t _ (.refl t)).2.1 harity
  obtain ⟨stamp, hr⟩ := hscope.further _ rfl
  have hbody : Machine.body M.unbounded inner .nil [.leaf (word "r" 13)] { t with stamps } =
      .done (.list stamp [.keyword ":b", .keyword ":c"]) { t with stamps } := by
    rw [Machine.body_singleton]
    have hgives : Machine.Gives M.unbounded inner (.leaf (word "r" 13)) { t with stamps }
        (.list stamp [.keyword ":b", .keyword ":c"]) { t with stamps } := .ofScope rfl hr
    exact Machine.unbounded_leaf (s := { t with stamps }) (hext.builtin? hs.identity) hgives rfl
  exact ⟨ref, t, stamp, _, hmade, Outcome.same_done_iff.mp (hcall.trans (.of_eq hbody))⟩

end LittleLisp
