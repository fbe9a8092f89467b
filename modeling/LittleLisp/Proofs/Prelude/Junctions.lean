/-
# `and` and `or` stop early

The forms `and` and `or` of the prelude are one form with a truth value as its parameter: the one
that goes on as long as expressions come out as `unit`. What it means is a fold over its
expressions. They are evaluated in order, each at most once; a fault ends the fold, an expression
other than the last that comes out differently ends it with the opposite truth value, and
otherwise the value of the last one is the result.

Each step of the fold is a replacement by a conditional around a shorter form of the same name, so
the names `if` and `and` or `or` are looked up once more after every expression that the fold goes
on from. They have to be bound to the same at these moments, and nothing is asked of any other
moment.

Key definitions: `Machine.fold`, `Machine.Reaches`.
Key theorems: `Machine.same_fold`, `Machine.junction_is_fold`.
-/
import LittleLisp.Proofs.Prelude.Forms

namespace LittleLisp

variable {σ : Type}

namespace Machine

open Outcome (Same)

/-! ### The fold -/

section Fold

variable (self : Recur σ) (scope : Scope) (unit : Bool)

/-- Evaluates expressions in order as long as they come out as `unit`. -/
def fold : List Node → Action σ Value
  | [] => pure (.bool unit)
  | [e] => self.eval scope e
  | e :: e' :: es => do
    match ← self.eval scope e with
    | .error f => return .error f
    | v => if v.isTruthy = unit then fold (e' :: es) else return .bool (!unit)

/-- The fold over the first expressions comes to the point where the second ones are left, in a
store that the expressions before them leave. -/
inductive Reaches : List Node → Store σ → List Node → Store σ → Prop where
  | here {es : List Node} {s : Store σ} : Reaches es s es s
  | next {e e' : Node} {es rest : List Node} {v : Value} {s t u : Store σ}
      (he : self.eval scope e s = .done v t) (hv : v.isError = false) (hunit : v.isTruthy = unit)
      (h : Reaches (e' :: es) t rest u) : Reaches (e :: e' :: es) s rest u

variable {self scope unit}

theorem fold_cons {e e' : Node} {es : List Node} {s t : Store σ} {v : Value}
    (he : self.eval scope e s = .done v t) (hv : v.isError = false) :
    fold self scope unit (e :: e' :: es) s =
      if v.isTruthy = unit then fold self scope unit (e' :: es) t else .done (.bool (!unit)) t := by
  rw [fold, Action.bind_done he]
  cases v with
  | error f => simp [Value.isError] at hv
  | _ =>
    dsimp only
    split_ifs <;> rfl

end Fold

/-! ### One step -/

variable {M : Machine σ} {scope : Scope} {unit : Bool} {s : Store σ}

/-- A conditional with the branches of the fold. -/
theorem unbounded_branches {test : Token} (htest : M.Heads scope "if" test)
    (hif : s.expander? "if" = some (.special .conditional)) (e go stop : Node) :
    Same (M.unbounded.eval scope (.form (.leaf test :: e :: branches unit go stop)) s)
      ((do
        match ← M.unbounded.eval scope e with
        | .error f => return Value.error f
        | v => M.unbounded.eval scope (if v.isTruthy = unit then go else stop)) s) := by
  cases unit with
  | true => exact unbounded_conditional htest hif e go stop
  | false =>
    refine (unbounded_conditional htest hif e stop go).trans ?_
    refine Action.same_bind (.refl _) fun v t _ => ?_
    have hchoice (w : Value) : (if w.isTruthy then stop else go) =
        if w.isTruthy = false then go else stop := by
      cases w.isTruthy <;> rfl
    cases v <;> first | exact .refl _ | (simp only [hchoice]; exact .refl _)

theorem unbounded_truth {b : Bool} {t : Token} (ht : t.IsWord (truthWord b))
    (hid : s.builtin? Store.identityRef = some .identity) :
    M.unbounded.eval scope (.leaf t) s = .done (.bool b) s := by
  obtain ⟨htype, hvalue⟩ := isWord_truth ht
  rw [unbounded_literal hid (by simp [htype]) (by simp [htype]) (by simp [hvalue, Value.isError]),
    hvalue]
  rfl

/-- The names that the fold looks up. -/
def foldNames (unit : Bool) : List Text := [junction unit, "if"]

/-- What the fold relies on in a store: what `and` or `or` and `if` do, and the function that leaves
are evaluated with. -/
structure FoldReady (unit : Bool) (x : Transformation) (s : Store σ) : Prop where
  identity : s.builtin? Store.identityRef = some .identity
  form : s.expander? (junction unit) = some (.userDefined x)
  conditional : s.expander? "if" = some (.special .conditional)

theorem FoldReady.grows {x : Transformation} {t : Store σ} (h : FoldReady unit x s)
    (ht : s.Grows t) (hnames : ∀ name ∈ foldNames unit, t.find? name = s.find? name) :
    FoldReady unit x t :=
  ⟨ht.builtin? h.identity, ht.expander? (hnames _ (by simp [foldNames])) h.form,
    ht.expander? (hnames _ (by simp [foldNames])) h.conditional⟩

/-! ### The whole run -/

theorem same_fold (hsigil : M.effectiveSigil = defaultSigil)
    (hlocal : ∀ name ∈ foldNames unit, scope.find? name = none) {x : Transformation}
    (hbounded : x.Bounded) {yes no test head : Token} (hyes : yes.IsWord (truthWord unit))
    (hno : no.IsWord (truthWord !unit)) (htest : test.IsWord "if")
    (hhead : head.IsWord (junction unit))
    (hx : ∀ L : Legend, x.expand L [] = .leaf yes ∧ (∀ e, x.expand L [e] = e) ∧
      ∀ e e' es, x.expand L (e :: e' :: es) =
        .form (.leaf test :: e :: branches unit (.form (.leaf head :: e' :: es)) (.leaf no))) :
    ∀ (es : List Node) {word : Token} {s : Store σ}, word.type = .identifier →
      word.text = junction unit → FoldReady unit x s →
      (∀ rest t, Reaches M.unbounded scope unit es s rest t →
        ∀ name ∈ foldNames unit, t.find? name = s.find? name) →
      Same (M.unbounded.eval scope (.form (.leaf word :: es)) s)
        (fold M.unbounded scope unit es s) := by
  have hheads {word : Token} (htype : word.type = .identifier) (htext : word.text = junction unit) :
      M.Heads scope (junction unit) word :=
    heads_of_identifier hsigil (by cases unit <;> decide) htype htext
      (hlocal _ (by simp [foldNames]))
  intro es
  induction es with
  | nil =>
    intro word s htype htext hs _
    refine (unbounded_userDefined (hheads htype htext) hs.form hbounded []).trans (.of_eq ?_)
    rw [(hx _).1, unbounded_truth hyes hs.identity]
    rfl
  | cons e es ih =>
    intro word s htype htext hs hkeep
    refine (unbounded_userDefined (hheads htype htext) hs.form hbounded (e :: es)).trans ?_
    cases es with
    | nil =>
      rw [(hx _).2.1]
      exact .refl _
    | cons e' es =>
      rw [(hx _).2.2]
      have htest' := heads_of_word hsigil htest (by decide) (hlocal _ (by simp [foldNames]))
      refine (unbounded_branches htest' hs.conditional e _ _).trans ?_
      refine Action.same_bind (.refl _) fun v t ht => ?_
      have hgrows := grows_eval ht
      have hrest (hv : v.isError = false) :
          Same (M.unbounded.eval scope
              (if v.isTruthy = unit then .form (.leaf head :: e' :: es) else .leaf no) t)
            ((if v.isTruthy = unit then fold M.unbounded scope unit (e' :: es)
              else pure (.bool (!unit))) t) := by
        split_ifs with hunit
        · obtain ⟨hhtype, hhtext⟩ := hhead.identifier (by cases unit <;> decide)
          have hsame := hkeep _ t (.next ht hv hunit .here)
          refine ih hhtype hhtext (hs.grows hgrows hsame) fun rest u hu name hname => ?_
          rw [hkeep rest u (.next ht hv hunit hu) name hname, hsame name hname]
        · exact .of_eq (unbounded_truth hno (hgrows.builtin? hs.identity))
      cases v with
      | error f => exact .refl _
      | _ => exact hrest rfl

/-- **`and` and `or` are short-circuiting folds.** Under the default sigil, in every scope and store
where `and` or `or` is the form of the prelude and `if` the special form, none of them a local name:
if they are still bound to the same whenever the fold goes on to further expressions, then
`(and e ...)` and `(or e ...)` end as the fold over the expressions does, with the same value and
the same store, or neither of them ends. The marker that the prelude was read with must not make
keywords of the words of the definition. -/
theorem junction_is_fold (M : Machine σ) (hsigil : M.effectiveSigil = defaultSigil) (unit : Bool)
    {m : Text} (hm : PreludeSpells m (junction unit)) (scope : Scope) (s : Store σ)
    (hid : s.builtin? Store.identityRef = some .identity)
    (hdef : PreludeDefines m s (junction unit))
    (hif : s.expander? "if" = some (.special .conditional))
    (hlocal : ∀ name ∈ [junction unit, "if"], scope.find? name = none) (es : List Node)
    (hkeep : ∀ rest t, Reaches M.unbounded scope unit es s rest t →
      ∀ name ∈ [junction unit, "if"], t.find? name = s.find? name)
    (head : Token) (htype : head.type = .identifier) (htext : head.text = junction unit) :
    Same (M.unbounded.eval scope (.form (.leaf head :: es)) s)
      (fold M.unbounded scope unit es s) := by
  obtain ⟨L, spec, x, hspec, hx, hform⟩ :=
    Definition.Holds.reads (hdef _ (junction_mem unit) rfl) (hm _ (junction_mem unit) rfl)
  obtain ⟨yes, no, test, word, hyes, hno, htest, hword, hexpand⟩ := expand_junction hspec hx
  exact same_fold hsigil hlocal (Transformation.bounded_of_compile hx) hyes hno htest hword hexpand
    es htype htext ⟨hid, hform, hif⟩ hkeep

end Machine

namespace Session

open Machine (fold)

/-- In a session with the prelude, `(and true :a)` is `:a`. -/
theorem junction_is_fold_of_two :
    let c : Config := .default
    let M := (start c .none ()).machine
    let word : Token := ⟨.identifier, ⟨"user", 1, 2⟩, "and", .undefined "and"⟩
    let yes : Node := .leaf ⟨.literal, ⟨"user", 1, 6⟩, "true", .bool true⟩
    let last : Node := .leaf ⟨.keyword, ⟨"user", 1, 11⟩, ":a", .keyword ":a"⟩
    ∃ t, (start c .none ()).loadPrelude = some (none, { start c .none () with store := t }) ∧
      M.unbounded.eval [] (.form [.leaf word, yes, last]) t = .done (.keyword ":a") t := by
  intro c M word yes last
  obtain ⟨t, hload, hstandard, hdefs⟩ := loadPrelude_default
  refine ⟨t, hload, ?_⟩
  have hyes : M.unbounded.eval [] yes t = .done (.bool true) t :=
    Machine.unbounded_literal hstandard.identity (by simp) (by simp) rfl
  have hlast : M.unbounded.eval [] last t = .done (.keyword ":a") t :=
    Machine.unbounded_literal hstandard.identity (by simp) (by simp) rfl
  have hsame := Machine.junction_is_fold M (by decide) true (m := c.marker)
    (by decide +kernel) [] t hstandard.identity (hdefs _)
    (hstandard.specials .conditional) (by decide) [yes, last] (fun rest u h => ?_) word rfl rfl
  · rw [Machine.fold_cons hyes rfl] at hsame
    exact Outcome.same_done_iff.mp (hsame.trans (.of_eq hlast))
  · cases h with
    | here => exact fun _ _ => rfl
    | next he hv hunit h =>
      obtain ⟨rfl, rfl⟩ := Outcome.done.inj (hyes.symm.trans he)
      cases h
      exact fun _ _ => rfl

/-- With `..` in front of keywords, which the check lets pass and the prelude is loaded with, the
ellipses of the prelude are keywords: `(and true true)` matches no clause and has a fault as its
value. -/
theorem junction_stopped_by_dots :
    let c : Config := ⟨"user", ".", "..", true⟩
    c.IsValid ∧ ∃ f, answers c "(and true true)" = some [.error f] := by
  intro c
  have hc : c.IsValid := by decide
  have hfault : isFault (answers c "(and true true)") = true := by decide +kernel
  exact ⟨hc, isFault_iff.mp hfault⟩

end Session

end LittleLisp
