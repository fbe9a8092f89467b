/-
# Keywords in head position

A keyword in head position looks itself up: `(:a m)` is `(get m :a)`, and `(:a m d)` is
`(get m :a d)`. It does not matter how the keyword gets there, as a leaf, as what a name is bound
to, or as the value of a form, although a leaf is looked at before the arguments are evaluated and
a form after them. The arguments are evaluated once and in the same order, and the keyword
itself, written between them, does nothing. With another number of arguments the form ends with a
fault about that, after they have been evaluated.

A value that `get` gives may be a fault, and one without a position gets that of the form, which is
where its head stands. So there the ways differ. They also differ if the name `get` is spelled like
a method, which is up to the sigil that a machine has for these.

Key definitions: `Store.Unnoticed`, `Outcome.Alike`, `Outcome.ButPosition`, `Machine.found`,
`Machine.lookUp`, `Machine.IsKeyword`, `Machine.ComesToKeyword`, `Machine.IsGet`.
Key theorems: `Machine.getKeyword_found`, `Machine.withArguments_insert`,
`Machine.keyword_heads_are_get`.
-/
import LittleLisp.Host.Sample
import LittleLisp.Proofs.Prelude.Parallel

namespace LittleLisp

variable {σ α : Type}

/-! ### What nobody notices -/

namespace Store

/-- The second store differs from the first in nothing that can be noticed: there may be further
functions without a name, which nothing in the first one refers to, and later stamps. -/
structure Unnoticed (t u : Store σ) : Prop where
  module : u.module = t.module
  bindings : u.bindings = t.bindings
  functions : ∃ more : Array Function, u.functions = t.functions ++ more ∧
    ∀ f ∈ more, f.name = []
  transformers : u.transformers = t.transformers
  host : u.host = t.host

variable {t u : Store σ}

theorem Unnoticed.refl (t : Store σ) : t.Unnoticed t :=
  ⟨rfl, rfl, ⟨#[], by simp, by simp⟩, rfl, rfl⟩

theorem Unnoticed.grows (h : t.Unnoticed u) : t.Grows u where
  bodies ref f hf := by
    obtain ⟨more, hfunctions, -⟩ := h.functions
    have href : ref < t.functions.size := (Array.getElem?_eq_some_iff.mp hf).1
    exact ⟨f, by rw [hfunctions, Array.getElem?_append_left href, hf], rfl⟩
  transformers ref x hx := by rw [h.transformers, hx]

/-- All values are printed the same. -/
theorem Unnoticed.legend (h : t.Unnoticed u) (H : Host σ) : u.legend H = t.legend H := by
  obtain ⟨more, hfunctions, hnames⟩ := h.functions
  have hname (ref : Nat) : (u.functions[ref]?.map Function.name).getD [] =
      (t.functions[ref]?.map Function.name).getD [] := by
    rw [hfunctions]
    by_cases href : ref < t.functions.size
    · rw [Array.getElem?_append_left href]
    · have hnone : t.functions[ref]? = none := Array.getElem?_eq_none (by omega)
      rw [Array.getElem?_append_right (by omega), hnone]
      cases hf : more[ref - t.functions.size]? with
      | none => rfl
      | some f => exact hnames f (Array.mem_of_getElem? hf)
  simp only [Store.legend, hname, h.transformers, h.host]

end Store

namespace Outcome

/-- Two evaluations end with the same, and the second leaves a store that differs from that of the
first in nothing that can be noticed; or neither of them ends. -/
inductive Alike : Outcome σ α → Outcome σ α → Prop where
  | done {a : α} {t u : Store σ} (h : t.Unnoticed u) : Alike (.done a t) (.done a u)
  | raised {alarm : Alarm} {t u : Store σ} (h : t.Unnoticed u) :
      Alike (.raised alarm t) (.raised alarm u)
  | exhausted {t u : Store σ} : Alike (.exhausted t) (.exhausted u)

theorem Alike.refl : ∀ o : Outcome σ α, Alike o o
  | .done _ t => .done (.refl t)
  | .raised _ t => .raised (.refl t)
  | .exhausted _ => .exhausted

theorem Alike.of_done {a : α} {t : Store σ} {o : Outcome σ α} (h : Alike (.done a t) o) :
    ∃ u, o = .done a u ∧ t.Unnoticed u := by
  cases h with
  | done h => exact ⟨_, rfl, h⟩

theorem Alike.trans_same {o o' o'' : Outcome σ α} (h : Alike o o') (h' : Same o' o'') :
    Alike o o'' := by
  cases h with
  | done h =>
    rw [same_done_iff.mp h'.symm]
    exact .done h
  | raised h =>
    rw [same_raised_iff.mp h'.symm]
    exact .raised h
  | exhausted =>
    cases o'' with
    | exhausted u => exact .exhausted
    | done a u => simp [Same, result] at h'
    | raised alarm u => simp [Same, result] at h'

/-- Two evaluations end with the same and leave the same store, but a fault may have another
position. -/
inductive ButPosition : Outcome σ Value → Outcome σ Value → Prop where
  | same (o : Outcome σ Value) : ButPosition o o
  | fault (kind : FaultKind) (message : Text) (p p' : Position) (t : Store σ) :
      ButPosition (.done (.error ⟨kind, message, p⟩) t) (.done (.error ⟨kind, message, p'⟩) t)

theorem butPosition_located (v : Value) (p p' : Position) (t : Store σ) :
    ButPosition (.done (v.located p) t) (.done (v.located p') t) := by
  cases v with
  | error f => exact .fault f.kind f.message _ _ t
  | _ => exact .same _

end Outcome

namespace Machine

open Outcome (Same Alike ButPosition)

variable (M : Machine σ) {scope : Scope} {s t u : Store σ} {k : Text} {self : Recur σ}

/-! ### Looking up -/

/-- What a call of `get` with some arguments gives in a form at `p`: a fault that has no position
gets that of the form. -/
def gotten (p : Position) (args : List Value) : Action σ Value := fun t =>
  match Builtin.get.apply (t.legend M.host) args with
  | .ok v => .done (v.orNil.located p) t
  | .error message => .raised (.native message) t

/-- What a keyword finds in the arguments of a form at `p`: a collection, and what is given if there
is nothing in it. -/
def found (k : Text) (p : Position) (args : List Value) : Action σ Value :=
  match args with
  | [coll] => gotten M p [coll, .keyword k]
  | [coll, default] => gotten M p [coll, .keyword k, default]
  | args => return .error (.placed .arity p
      ["keyword ", k, " expects 1 or 2 arguments, got ", Text.ofNat args.length])

/-- Looks a keyword up in the values of the operands of a form at `p`, unless one of them fails. -/
def lookUp (self : Recur σ) (scope : Scope) (k : Text) (operands : List Node) (p : Position) :
    Action σ Value :=
  withArguments self scope operands (found M k p)

variable {M}

theorem call_get {ref : Nat} (h : t.builtin? ref = some .get) (p : Position) (args : List Value) :
    (do
      let v ← M.call self ref args
      return v.located p : Action σ Value) t = gotten M p args t := by
  obtain ⟨name, hf⟩ := Store.builtin?_eq_some.mp h
  simp only [call, bind, Action.bind, Action.store, hf, gotten]
  cases Builtin.get.apply (t.legend M.host) args <;> rfl

theorem unbounded_call_get {ref : Nat} (h : t.builtin? ref = some .get) (p : Position)
    (args : List Value) :
    Same ((do
      let v ← M.unbounded.call ref args
      return v.located p : Action σ Value) t) (gotten M p args t) :=
  (Action.same_bind (M.unbounded_call ref args t) fun _ _ _ => .refl _).trans
    (.of_eq (call_get h p args))

/-- Applying a keyword is looking it up. -/
theorem getKeyword_found (h : t.builtin? M.getter = some .get) (k : Text) (args : List Value)
    (p : Position) : getKeyword M self (.keyword k) args p t = found M k p args t :=
  match args with
  | [] => rfl
  | [coll] => call_get h p [coll, .keyword k]
  | [coll, default] => call_get h p [coll, .keyword k, default]
  | _ :: _ :: _ :: _ => rfl

theorem alike_gotten (h : t.Unnoticed u) (p : Position) (args : List Value) :
    Alike (gotten M p args t) (gotten M p args u) := by
  unfold gotten
  rw [h.legend]
  cases Builtin.get.apply (t.legend M.host) args with
  | ok v => exact .done h
  | error message => exact .raised h

/-- What is found does not depend on what cannot be noticed. -/
theorem alike_found (h : t.Unnoticed u) (k : Text) (p : Position) (args : List Value) :
    Alike (found M k p args t) (found M k p args u) :=
  match args with
  | [] => .done h
  | [coll] => alike_gotten h p [coll, .keyword k]
  | [coll, default] => alike_gotten h p [coll, .keyword k, default]
  | _ :: _ :: _ :: _ => .done h

theorem butPosition_gotten (p p' : Position) (args : List Value) :
    ButPosition (gotten M p args t) (gotten M p' args t) := by
  unfold gotten
  cases Builtin.get.apply (t.legend M.host) args with
  | ok v => exact Outcome.butPosition_located v.orNil p p' t
  | error message => exact .same _

/-- Where the form stands matters to the position of a fault only. -/
theorem butPosition_found (k : Text) (p p' : Position) (args : List Value) :
    ButPosition (found M k p args t) (found M k p' args t) :=
  match args with
  | [] => .fault _ _ p p' t
  | [coll] => butPosition_gotten p p' [coll, .keyword k]
  | [coll, default] => butPosition_gotten p p' [coll, .keyword k, default]
  | _ :: _ :: _ :: _ => .fault _ _ p p' t

/-- What goes on with the values of operands in two ways that are related ends so, if everything
that can come before is related to itself. -/
theorem withArguments_related {R : Outcome σ Value → Outcome σ Value → Prop} (hR : ∀ o, R o o)
    {ns : List Node} {next next' : List Value → Action σ Value}
    (h : ∀ args t, arguments self scope ns s = .done (.ok args) t →
      R (next args t) (next' args t)) :
    R (withArguments self scope ns next s) (withArguments self scope ns next' s) := by
  unfold withArguments
  cases hargs : arguments self scope ns s with
  | raised alarm t =>
    rw [Action.bind_raised hargs, Action.bind_raised hargs]
    exact hR _
  | exhausted t =>
    rw [Action.bind_exhausted hargs, Action.bind_exhausted hargs]
    exact hR _
  | done x t =>
    rw [Action.bind_done hargs, Action.bind_done hargs]
    cases x with
    | error f => exact hR _
    | ok args => exact h args t hargs

/-! ### Ways to get to a keyword -/

variable (M scope) in
/-- A leaf that is a keyword, or a name other than that of a method that is bound to one. -/
def IsKeyword (s : Store σ) (k : Text) (head : Token) : Prop :=
  (head.type = .keyword ∧ head.value = .keyword k) ∨
    (head.type = .identifier ∧ M.isMethodName head = false ∧
      resolve scope head s = .ok (.keyword k))

variable (M scope) in
/-- A tree that is no leaf and has a keyword as its value, without any effect, once some operands
have been evaluated. -/
structure ComesToKeyword (s : Store σ) (operands : List Node) (k : Text) (head : Node) : Prop where
  tree : ∀ t, head ≠ .leaf t
  value : ∀ args t, arguments M.unbounded scope operands s = .done (.ok args) t →
    ∃ u, M.unbounded.eval scope head t = .done (.keyword k) u ∧ t.Unnoticed u

variable (M scope) in
/-- A leaf that stands for the built-in function `get`, under a name other than that of a method. -/
def IsGet (s : Store σ) (head : Token) : Prop :=
  head.type = .identifier ∧ M.isMethodName head = false ∧
    ∃ ref, resolve scope head s = .ok (.function ref) ∧ s.builtin? ref = some .get

/-- A keyword, or a name that is bound to one, looks the keyword up. -/
theorem IsKeyword.eval {head : Token} (h : M.IsKeyword scope s k head)
    (hgetter : s.builtin? M.getter = some .get) (operands : List Node) :
    Same (M.unbounded.eval scope (.form (.leaf head :: operands)) s)
      (lookUp M M.unbounded scope k operands (Node.form (.leaf head :: operands)).position s) := by
  refine (M.unbounded_eval _ _ _).trans ?_
  change Same (form M M.unbounded scope (.leaf head) operands s) _
  rcases h with ⟨htype, hvalue⟩ | ⟨htype, hmethod, hres⟩
  · have hhead : M.headValue scope head s = .ok .absent := if_pos (Or.inl htype)
    rw [form_plain M _ hhead nofun]
    refine withArguments_related .refl fun args t ht => .of_eq ?_
    rw [applyLeaf, if_pos htype, hvalue]
    exact getKeyword_found ((grows_arguments ht).builtin? hgetter) k args _
  · have hhead : M.headValue scope head s = .ok (.keyword k) := by
      simp [headValue, htype, hmethod, hres]
    rw [form_plain M _ hhead (by simp)]
    refine withArguments_related .refl fun args t ht => .of_eq ?_
    rw [applyLeaf, if_neg (by simp [htype]), hmethod]
    exact getKeyword_found ((grows_arguments ht).builtin? hgetter) k args _

/-- So does a form with the keyword as its value, after its operands. -/
theorem ComesToKeyword.eval {head : Node} {operands : List Node}
    (h : M.ComesToKeyword scope s operands k head) (hgetter : s.builtin? M.getter = some .get) :
    Alike (lookUp M M.unbounded scope k operands (Node.form (head :: operands)).position s)
      (M.unbounded.eval scope (.form (head :: operands)) s) := by
  refine Alike.trans_same ?_ (M.unbounded_eval _ _ _).symm
  change Alike _ (form M M.unbounded scope head operands s)
  rw [form_compound M _ h.tree]
  generalize (Node.form (head :: operands)).position = p
  refine withArguments_related .refl fun args t ht => ?_
  -- the head comes after the operands, and the keyword is looked up in the store that it leaves
  obtain ⟨u, hu, hunnoticed⟩ := h.value args t ht
  have hgetter' := hunnoticed.grows.builtin? ((grows_arguments ht).builtin? hgetter)
  rw [Action.bind_done hu]
  change Alike _ (getKeyword M M.unbounded (.keyword k) args p u)
  rw [getKeyword_found hgetter']
  exact alike_found hunnoticed k p args

/-- The arguments of `get` are those of the look-up, with the keyword after the first. -/
theorem withArguments_insert {key : Token} (htype : key.type = .keyword)
    (hvalue : key.value = .keyword k) (m : Node) (rest : List Node)
    (next : List Value → Action σ Value) :
    withArguments self scope (m :: .leaf key :: rest) next =
      withArguments self scope (m :: rest) fun args =>
        next (args.take 1 ++ .keyword k :: args.drop 1) := by
  -- between the operands, the keyword is evaluated to itself and leaves the store alone
  have hkey : argument self scope (.leaf key) = pure (.ok (.keyword k)) := by
    rw [argument_literal self scope (by simp [htype]) (by simp [htype]), hvalue]
    rfl
  rw [withArguments_cons, withArguments_cons]
  refine congrArg (argument self scope m >>= ·) (funext fun x => ?_)
  cases x with
  | error f => rfl
  | ok v =>
    dsimp only
    rw [withArguments_cons, hkey]
    rfl

/-- A call of `get` with a keyword looks it up. -/
theorem IsGet.eval {head key : Token} (h : M.IsGet scope s head) (htype : key.type = .keyword)
    (hvalue : key.value = .keyword k) (m : Node) {rest : List Node} (hrest : rest.length ≤ 1) :
    Same (M.unbounded.eval scope (.form (.leaf head :: m :: .leaf key :: rest)) s)
      (lookUp M M.unbounded scope k (m :: rest)
        (Node.form (.leaf head :: m :: .leaf key :: rest)).position s) := by
  obtain ⟨hhead, hmethod, ref, hres, hget⟩ := h
  have hvalue' : M.headValue scope head s = .ok (.function ref) := by
    simp [headValue, hhead, hmethod, hres]
  refine (unbounded_function hhead hvalue' hmethod _).trans ?_
  generalize (Node.form (.leaf head :: m :: .leaf key :: rest)).position = p
  change Same (withArguments M.unbounded scope (m :: .leaf key :: rest) (fun args => do
    let v ← M.unbounded.call ref args
    return v.located p) s) _
  rw [withArguments_insert htype hvalue]
  refine withArguments_related .refl fun args t ht => ?_
  have hget' := (grows_arguments ht).builtin? hget
  have hlength := length_of_arguments ht
  have hfound : found M k p args = gotten M p (args.take 1 ++ .keyword k :: args.drop 1) := by
    rcases args with _ | ⟨coll, _ | ⟨default, _ | ⟨v, vs⟩⟩⟩
    · cases hlength
    · rfl
    · rfl
    · simp only [List.length_cons] at hlength
      omega
  rw [hfound]
  exact unbounded_call_get hget' p _

/-- **A keyword in head position is `get`, however it gets there.** A call of `get` with a keyword
as its second argument, a form with a leaf at its head that is the keyword or is bound to it, and a
form with a head that is evaluated to it are all the same look-up in the values of the remaining
operands, one or two, at their own positions, which matter to the position of a fault only. The
first two leave the same store, and what the third one leaves differs from it in nothing that can be
noticed. With another number of operands the look-up comes to a fault about that, after it has
evaluated them. -/
theorem keyword_heads_are_get (M : Machine σ) (scope : Scope) (s : Store σ) (k : Text)
    (hgetter : s.builtin? M.getter = some .get) :
    (∀ (head key : Token) (m : Node) (rest : List Node), M.IsGet scope s head →
      key.type = .keyword → key.value = .keyword k → rest.length ≤ 1 →
      Same (M.unbounded.eval scope (.form (.leaf head :: m :: .leaf key :: rest)) s)
        (lookUp M M.unbounded scope k (m :: rest)
          (Node.form (.leaf head :: m :: .leaf key :: rest)).position s)) ∧
    (∀ (head : Token) (operands : List Node), M.IsKeyword scope s k head →
      Same (M.unbounded.eval scope (.form (.leaf head :: operands)) s)
        (lookUp M M.unbounded scope k operands (Node.form (.leaf head :: operands)).position s)) ∧
    (∀ (head : Node) (operands : List Node), M.ComesToKeyword scope s operands k head →
      Alike (lookUp M M.unbounded scope k operands (Node.form (head :: operands)).position s)
        (M.unbounded.eval scope (.form (head :: operands)) s)) ∧
    (∀ (operands : List Node) (p p' : Position),
      ButPosition (lookUp M M.unbounded scope k operands p s)
        (lookUp M M.unbounded scope k operands p' s)) ∧
    (∀ (operands : List Node) (args : List Value) (t : Store σ) (p : Position),
      arguments M.unbounded scope operands s = .done (.ok args) t →
      operands.length ≠ 1 → operands.length ≠ 2 →
      lookUp M M.unbounded scope k operands p s = .done (.error (.placed .arity p
        ["keyword ", k, " expects 1 or 2 arguments, got ", Text.ofNat operands.length])) t) := by
  refine ⟨fun head key m rest h htype hvalue hrest => h.eval htype hvalue m hrest,
    fun head operands h => h.eval hgetter operands, fun head operands h => h.eval hgetter,
    fun operands p p' => withArguments_related .same fun args _ _ => butPosition_found k p p' args,
    fun operands args t p hargs hone htwo => ?_⟩
  rw [← length_of_arguments hargs] at hone htwo ⊢
  rw [lookUp, withArguments, Action.bind_done hargs]
  match args with
  | [] => rfl
  | [_] => exact absurd rfl hone
  | [_, _] => exact absurd rfl htwo
  | _ :: _ :: _ :: _ => rfl

end Machine

namespace Session

/-- A keyword looked up in a map that holds it, with a default, in every way: by `get`, by the
keyword itself, by a name that is bound to it and by a form that comes to it. A keyword that the map
does not hold comes to the default, and one without arguments to a fault. -/
theorem keyword_heads_are_get_for_map :
    let s := start .default .none ()
    let scope : Scope := [("m", .map 0 [(.keyword ":a", .string "found")]),
      ("d", .string "default"), ("k", .keyword ":a")]
    let eval := s.machine.unbounded.eval scope
    let pos : Position := ⟨"user", 1, 2⟩
    let name (t : Text) : Token := ⟨.identifier, pos, t, .undefined t⟩
    let key (t : Text) : Token := ⟨.keyword, pos, t, .keyword t⟩
    let m : Node := .leaf (name "m")
    let d : Node := .leaf (name "d")
    let form : Node := .form [.leaf (name "identity"), .leaf (key ":a")]
    let found : Value := .string "found"
    eval (.form [.leaf (name "get"), m, .leaf (key ":a"), d]) s.store = .done found s.store ∧
      eval (.form [.leaf (key ":a"), m, d]) s.store = .done found s.store ∧
      eval (.form [.leaf (name "k"), m, d]) s.store = .done found s.store ∧
      (∃ u, eval (.form [form, m, d]) s.store = .done found u ∧ s.store.Unnoticed u) ∧
      eval (.form [.leaf (key ":b"), m, d]) s.store = .done (.string "default") s.store ∧
      eval (.form [.leaf (key ":a")]) s.store = .done (.error (.placed .arity pos
        ["keyword ", ":a", " expects 1 or 2 arguments, got ", Text.ofNat 0])) s.store := by
  intro s scope eval pos name key m d form found
  have hgetter : s.store.builtin? s.machine.getter = some .get := by decide +kernel
  have hargs : Machine.arguments s.machine.unbounded scope [m, d] s.store =
      .done (.ok [.map 0 [(.keyword ":a", .string "found")], .string "default"]) s.store := rfl
  have hfound : Machine.lookUp s.machine s.machine.unbounded scope ":a" [m, d] pos s.store =
      .done found s.store := by
    rw [Machine.lookUp, Machine.withArguments, Action.bind_done hargs]
    rfl
  have hmissing : Machine.lookUp s.machine s.machine.unbounded scope ":b" [m, d] pos s.store =
      .done (.string "default") s.store := by
    rw [Machine.lookUp, Machine.withArguments, Action.bind_done hargs]
    rfl
  have hget : s.machine.IsGet scope s.store (name "get") :=
    ⟨rfl, by decide, Store.getRef, rfl, hgetter⟩
  have hkey (t : Text) : s.machine.IsKeyword scope s.store t (key t) := .inl ⟨rfl, rfl⟩
  have hname : s.machine.IsKeyword scope s.store ":a" (name "k") := .inr ⟨rfl, by decide, rfl⟩
  have hform : s.machine.ComesToKeyword scope s.store [m, d] ":a" form := by
    refine ⟨nofun, fun args t ht => ?_⟩
    obtain ⟨-, rfl⟩ := Outcome.done.inj (hargs.symm.trans ht)
    have hstandard : s.store.Standard := Store.standard_withGlobals _ _
    have hidentity : s.machine.Heads scope "identity" (name "identity") :=
      ⟨rfl, rfl, by decide, rfl⟩
    have hcollected : Machine.Collected s.machine.unbounded scope [.leaf (key ":a")] s.store
        [.keyword ":a"] s.store := .cons (.literal (by simp [key]) (by simp [key])) .nil
    exact ⟨s.store, Machine.unbounded_builtin hidentity (hstandard.builtins .identity) hcollected
      rfl rfl, .refl _⟩
  obtain ⟨hcall, hleaf, hcompound, -, hfew⟩ :=
    Machine.keyword_heads_are_get s.machine scope s.store ":a" hgetter
  obtain ⟨-, hother, -⟩ := Machine.keyword_heads_are_get s.machine scope s.store ":b" hgetter
  refine ⟨?_, ?_, ?_, ?_, ?_, ?_⟩
  · exact Outcome.same_done_iff.mp
      ((hcall (name "get") (key ":a") m [d] hget rfl rfl (by simp)).trans (.of_eq hfound))
  · exact Outcome.same_done_iff.mp ((hleaf (key ":a") [m, d] (hkey ":a")).trans (.of_eq hfound))
  · exact Outcome.same_done_iff.mp ((hleaf (name "k") [m, d] hname).trans (.of_eq hfound))
  · have halike := hcompound form [m, d] hform
    have hposition : (Node.form [form, m, d]).position = pos := rfl
    rw [hposition, hfound] at halike
    exact halike.of_done
  · exact Outcome.same_done_iff.mp ((hother (key ":b") [m, d] (hkey ":b")).trans (.of_eq hmissing))
  · have hnone := hfew [] [] s.store pos rfl (by simp) (by simp)
    exact Outcome.same_done_iff.mp ((hleaf (key ":a") [] (hkey ":a")).trans (.of_eq hnone))

/-- Under the sigil `g` the name `get` is spelled like a method, so a call of it fails, where the
keyword is found. And a fault that was kept in a map without a position is given the one of the
form, which is that of the innermost head. -/
theorem keyword_heads_differ_from_get :
    let c : Config := ⟨"user", "g", ":", true⟩
    let s := start c .none ()
    let s' := Sample.furnish (Sample.session .default)
    let kept (column : Int) : Fault := ⟨.argument, "kept", ⟨"user", 1, column⟩⟩
    (c.IsValid ∧ s.store.named? "get" = some .get ∧
      s.store.builtin? s.machine.getter = some .get ∧
      (s.eval "(:a (hash-map :a 1))").map (·.1.map Value.isError) = some [false] ∧
      (s.eval "(get (hash-map :a 1) :a)").map (·.1.map Value.isError) = some [true]) ∧
    s'.store.named? "get" = some .get ∧
    s'.store.builtin? s'.machine.getter = some .get ∧
    (s'.eval "(get (hash-map :a stored) :a)").map (·.1.map Value.fault?) = some [some (kept 2)] ∧
    (s'.eval "((identity :a) (hash-map :a stored))").map (·.1.map Value.fault?) =
      some [some (kept 3)] := by
  refine ⟨⟨by decide, ?_, ?_, ?_, ?_⟩, ?_, ?_, ?_, ?_⟩ <;> decide +kernel

end Session

end LittleLisp
