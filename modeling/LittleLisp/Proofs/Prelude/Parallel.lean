/-
# `let` binds in parallel

`(let ((name value) ...) tree ...)` evaluates the values from left to right in the scope around it,
up to the first that fails. If none does, it evaluates the trees in order, up to the first fault,
in that scope extended by all names at a time; the last one wins among equal names.

The prelude makes `let` the call of a new function with the values as arguments. So the names of
the module and the state of the embedding program change by the evaluations of values and trees
only: what the call itself leaves behind is the new function, which has no name. A fault that has
no position gets one from the call.

Key definitions: `Machine.parallel`.
Key theorems: `Machine.let_is_parallel`.
-/
import LittleLisp.Proofs.Prelude.Forms

namespace LittleLisp

variable {σ : Type}

namespace Machine

open Outcome (Same)

/-- Evaluates values and then trees, with the names bound to the values. The function that the trees
are the body of is added to the store, and a fault of a tree without a position gets `q`. -/
def parallel (self : Recur σ) (scope : Scope) (names : List Text) (values trees : List Node)
    (q : Position) : Action σ Value := do
  match ← arguments self scope values with
  | .error f => return .error f
  | .ok args =>
    Action.modify fun t =>
      { t with functions := t.functions.push ⟨[], .closure ⟨names, none, trees, scope⟩⟩ }
    let v ← body self (scope.insertAll names args) .nil trees
    return v.located q

variable {M : Machine σ} {scope : Scope} {s t : Store σ}

theorem Collected.length_eq {self : Recur σ} {ns : List Node} {vs : List Value}
    (h : Collected self scope ns s vs t) : vs.length = ns.length := by
  induction h with
  | nil => rfl
  | cons _ _ ih => simp [ih]

theorem length_of_arguments {self : Recur σ} {ns : List Node} {vs : List Value}
    (h : arguments self scope ns s = .done (.ok vs) t) : vs.length = ns.length := by
  rcases arguments_cases h with ⟨ws, hws, hcollected⟩ | ⟨_, _, _, _, _, _, hne, -⟩
  · rw [Except.ok.inj hws]
    exact hcollected.length_eq
  · simp at hne

/-- The call of a new function with some values. -/
theorem same_parallel {lambda : Token} (hhead : M.Heads scope "fn" lambda)
    (hid : s.builtin? Store.identityRef = some .identity)
    (hfn : s.expander? "fn" = some (.special .lambda)) {names : List Token}
    (hnames : ∀ p ∈ names, p.type = .identifier ∧ p.text ≠ "&") {values : List Node}
    (hlength : values.length = names.length)
    (hkeep : ∀ args t, arguments M.unbounded scope values s = .done (.ok args) t →
      t.find? "fn" = s.find? "fn") (b : Node) (bs : List Node) :
    let call : Node :=
      .form (.form (.leaf lambda :: .form (names.map .leaf) :: b :: bs) :: values)
    Same (M.unbounded.eval scope call s)
      (parallel M.unbounded scope (names.map Token.text) values (b :: bs) call.position s) := by
  intro call
  refine (M.unbounded_eval _ _ _).trans ?_
  change Same (form M M.unbounded scope
    (.form (.leaf lambda :: .form (names.map .leaf) :: b :: bs)) values s) _
  rw [form_compound M _ (by simp)]
  refine Action.same_bind (.refl _) fun x t ht => ?_
  cases x with
  | error f => exact .refl _
  | ok args =>
    have hgrows := grows_arguments ht
    have heval := unbounded_lambda hhead (hgrows.expander? (hkeep args t ht) hfn)
      (hgrows.builtin? hid) hnames (b :: bs)
    have hargs : args.length = (names.map Token.text).length := by
      rw [length_of_arguments ht, hlength, List.length_map]
    dsimp only
    rw [Action.bind_done heval]
    -- the new function is called, and its body has a value
    let f : Function := ⟨[], .closure ⟨names.map Token.text, none, b :: bs, scope⟩⟩
    have hf : (t.addFunction f).2.functions[t.functions.size]? = some f := by
      simp [Store.addFunction]
    have hcall := (unbounded_closure (M := M) hf rfl rfl hargs).trans (.of_eq (body_orNil b bs _ _))
    exact Action.same_bind ((M.unbounded_call _ _ _).symm.trans hcall) fun v u _ => .refl _

/-- **`let` binds in parallel.** Under the default sigil, in every scope and store where `let` is
the form of the prelude and `fn` the special form, neither of them a local name, and `fn` is still
bound to the same after the values: a `let` with any number of pairs of a name other than `&` and a
value, and at least one tree, ends as the evaluation of the values in the scope around it and then
of the trees in that scope extended by the names does, with the same value and the same store, or
neither of them ends. The marker that the prelude was read with must not make keywords of the words
of the definition. -/
theorem let_is_parallel (M : Machine σ) (hsigil : M.effectiveSigil = defaultSigil) {m : Text}
    (hm : PreludeSpells m "let") (scope : Scope) (s : Store σ)
    (hid : s.builtin? Store.identityRef = some .identity) (hdef : PreludeDefines m s "let")
    (hfn : s.expander? "fn" = some (.special .lambda))
    (hlocal : ∀ name ∈ (["let", "fn"] : List Text), scope.find? name = none)
    (pairs : List (Token × Node))
    (hnames : ∀ p ∈ pairs, p.1.type = .identifier ∧ p.1.text ≠ "&") (b : Node) (bs : List Node)
    (hkeep : ∀ args t, arguments M.unbounded scope (pairs.map Prod.snd) s = .done (.ok args) t →
      t.find? "fn" = s.find? "fn")
    (head : Token) (htype : head.type = .identifier) (htext : head.text = "let") :
    ∃ q, Same
      (M.unbounded.eval scope
        (.form (.leaf head :: .form (pairs.map fun p => .form [.leaf p.1, p.2]) :: b :: bs)) s)
      (parallel M.unbounded scope (pairs.map fun p => p.1.text) (pairs.map Prod.snd) (b :: bs) q
        s) := by
  obtain ⟨L, spec, x, hspec, hx, hform⟩ :=
    Definition.Holds.reads (hdef _ let_mem rfl) (hm _ let_mem rfl)
  obtain ⟨lambda, hlambda, hexpand⟩ := expand_let hspec hx
  have hhead := heads_of_identifier hsigil (by decide) htype htext (hlocal _ (by simp))
  have hhead' := heads_of_word hsigil hlambda (by decide) (hlocal _ (by simp))
  have hreplaced := hexpand (s.legend M.host) (pairs.map fun p => (.leaf p.1, p.2)) b bs
  have hparallel :=
    same_parallel hhead' hid hfn (List.forall_mem_map.mpr hnames) (by simp) hkeep b bs
  simp only [List.map_map, Function.comp_def] at hreplaced hparallel
  have huser := unbounded_userDefined hhead hform (Transformation.bounded_of_compile hx)
    (.form (pairs.map fun p => .form [.leaf p.1, p.2]) :: b :: bs)
  rw [hreplaced] at huser
  exact ⟨_, huser.trans hparallel⟩

end Machine

namespace Session

/-- In a session with the prelude, `(let ((x :a) (x :b)) x)` is `:b`. -/
theorem let_is_parallel_of_equal_names :
    let c : Config := .default
    let M := (start c .none ()).machine
    let word (text : Text) (column : Nat) : Token :=
      ⟨.identifier, ⟨"user", 1, column⟩, text, .undefined text⟩
    let keyword (text : Text) (column : Nat) : Node :=
      .leaf ⟨.keyword, ⟨"user", 1, column⟩, text, .keyword text⟩
    ∃ t u, (start c .none ()).loadPrelude = some (none, { start c .none () with store := t }) ∧
      M.unbounded.eval [] (.form [.leaf (word "let" 2),
        .form [.form [.leaf (word "x" 8), keyword ":a" 10],
          .form [.leaf (word "x" 15), keyword ":b" 17]], .leaf (word "x" 22)]) t =
        .done (.keyword ":b") u ∧ u.bindings = t.bindings := by
  intro c M word keyword
  obtain ⟨t, hload, hstandard, hdefs⟩ := loadPrelude_default
  have hargs : Machine.arguments M.unbounded [] [keyword ":a" 10, keyword ":b" 17] t =
      .done (.ok [.keyword ":a", .keyword ":b"]) t := rfl
  obtain ⟨q, hsame⟩ := Machine.let_is_parallel M (by decide) (m := c.marker) (by decide +kernel)
    [] t hstandard.identity (hdefs _) (hstandard.specials .lambda) (by decide)
    [(word "x" 8, keyword ":a" 10), (word "x" 15, keyword ":b" 17)] (by decide)
    (.leaf (word "x" 22)) []
    (fun args u h => by
      obtain ⟨-, rfl⟩ := Outcome.done.inj (hargs.symm.trans h)
      rfl)
    (word "let" 2) rfl rfl
  let f : Function := ⟨[], .closure ⟨["x", "x"], none, [.leaf (word "x" 22)], []⟩⟩
  let u : Store Unit := (t.addFunction f).2
  have hx : M.unbounded.eval [("x", .keyword ":b")] (.leaf (word "x" 22)) u =
      .done (.keyword ":b") u :=
    Machine.unbounded_leaf (v := .keyword ":b")
      ((t.extends_addFunction f).builtin? hstandard.identity) (.ofScope rfl rfl) rfl
  have hbody : Machine.body M.unbounded [("x", .keyword ":b")] .nil [.leaf (word "x" 22)] u =
      .done (.keyword ":b") u := by
    rw [Machine.body, Action.bind_done hx]
    rfl
  have hparallel : Machine.parallel M.unbounded [] ["x", "x"] [keyword ":a" 10, keyword ":b" 17]
      [.leaf (word "x" 22)] q t = .done (.keyword ":b") u := by
    rw [Machine.parallel, Action.bind_done hargs]
    exact Action.bind_done hbody
  exact ⟨t, u, hload, Outcome.same_done_iff.mp (hsame.trans (.of_eq hparallel)), rfl⟩

/-- With `..` in front of keywords, which the check lets pass and the prelude is loaded with, the
ellipses of the prelude are keywords: `(let ((x true)) x)` matches no clause and has a fault as its
value. -/
theorem let_stopped_by_dots :
    let c : Config := ⟨"user", ".", "..", true⟩
    c.IsValid ∧ ∃ f, answers c "(let ((x true)) x)" = some [.error f] := by
  intro c
  have hc : c.IsValid := by decide
  have hfault : isFault (answers c "(let ((x true)) x)") = true := by decide +kernel
  exact ⟨hc, isFault_iff.mp hfault⟩

end Session

end LittleLisp
