/-
# Refusals

A form that is replaced is refused for how its operands look, and the report of it has the position
of a part of them: of an operand, of something inside one, or of all of them together. The position
of such a part is that of the first word in it. So a refusal has no position if the operands have no
word in the part that it is about, and that is so in particular if there are no operands.

A conditional whose test ends with a fault is not refused; it is replaced by the report of that
fault. It is the only special form whose replacement depends on a value.

Key definitions: `Node.Part`, `Node.Marks`, `Node.HasBlank`, `Machine.Rejects`.
Key theorems: `Transformation.blames_compile`, `Machine.expand_ofFault`.
-/
import LittleLisp.Proofs.Faults

namespace LittleLisp

variable {σ : Type}

namespace Node

/-! ### Parts of trees -/

/-- The first tree is a part of the second one, at any depth. -/
inductive Part : Node → Node → Prop where
  | self {n : Node} : Part n n
  | item {part n : Node} {ns : List Node} (hn : n ∈ ns) (h : Part part n) : Part part (.form ns)

/-- A part of the tree has the position. -/
def Marks (n : Node) (p : Position) : Prop := ∃ part, Part part n ∧ part.position = p

/-- A part of the tree has no word in it. -/
def HasBlank (n : Node) : Prop := ∃ part, Part part n ∧ part.position.isUnknown = true

variable {n part : Node} {ns : List Node} {p : Position}

theorem Part.trans {m : Node} (h : Part part m) (h' : Part m n) : Part part n := by
  induction h' with
  | self => exact h
  | item hn _ ih => exact .item hn ih

theorem MadeOf.of_part {T : Token → Prop} (h : n.MadeOf T) (hpart : Part part n) :
    part.MadeOf T := by
  induction hpart with
  | self => exact h
  | item hn _ ih => exact ih (madeOf_form.mp h _ hn)

theorem marks_position (n : Node) : n.Marks n.position := ⟨n, .self, rfl⟩

theorem marks_all (ns : List Node) : (form ns).Marks (positionOfAll ns) := marks_position (form ns)

theorem Marks.of_part (h : part.Marks p) (hpart : part.Part n) : n.Marks p := by
  obtain ⟨m, hm, hp⟩ := h
  exact ⟨m, hm.trans hpart, hp⟩

theorem Marks.of_mem (h : n.Marks p) (hn : n ∈ ns) : (form ns).Marks p := h.of_part (.item hn .self)

theorem Marks.hasBlank (h : n.Marks p) (hp : p.isUnknown = true) : n.HasBlank := by
  obtain ⟨m, hm, rfl⟩ := h
  exact ⟨m, hm, hp⟩

theorem identifier_eq_some {t : Token} (h : n.identifier? = some t) :
    n = .leaf t ∧ t.type = .identifier := by
  cases n with
  | leaf u =>
    simp only [identifier?] at h
    split_ifs at h with hu
    cases h
    exact ⟨rfl, hu⟩
  | _ => simp [identifier?] at h

/-- Some trees have a position if one of them does. -/
theorem known_positionOfAll : ∀ {ns : List Node}, (∃ n ∈ ns, n.position.isUnknown = false) →
    (positionOfAll ns).isUnknown = false
  | [], h => by simp at h
  | n :: ns, h => by
    unfold positionOfAll
    dsimp only
    split_ifs with hn
    · obtain ⟨m, hm, hknown⟩ := h
      rcases List.mem_cons.mp hm with rfl | hm
      · simp [hn] at hknown
      · exact known_positionOfAll ⟨m, hm, hknown⟩
    · simpa using hn

/-- A tree with a word in it has a position. -/
theorem known_of_part {t : Token} (h : Part (.leaf t) n) (ht : t.pos.isUnknown = false) :
    n.position.isUnknown = false := by
  induction h with
  | self => exact ht
  | @item n ns hn _ ih => exact known_positionOfAll ⟨n, hn, ih⟩

theorem ofFault_inj {f g : Fault} : ofFault f = ofFault g ↔ f = g := by
  refine ⟨fun h => ?_, fun h => h ▸ rfl⟩
  simp only [ofFault, leaf.injEq, Token.mk.injEq, Value.error.injEq] at h
  exact h.2.2.2

theorem ofValue_ne_ofFault {v : Value} (hv : v.isError = false) (p : Position) (f : Fault) :
    ofValue v p ≠ ofFault f := by
  cases v with
  | error g => simp [Value.isError] at hv
  | _ => simp [ofValue, ofFault]

end Node

open Node (Marks Part)

/-! ### Compiling -/

/-- What a compilation finds wrong, if anything, has the position of a part of the tree. -/
def Compiled.Blames {γ : Type} (n : Node) (x : Compiled γ) : Prop :=
  ∀ f, x = .error (.fault f) → n.Marks f.pos

namespace Compiled

variable {γ δ : Type} {n part : Node} {x : Compiled γ}

theorem blames_ok (a : γ) : Blames n (.ok a : Compiled γ) := nofun

theorem blames_fail {p : Position} (hp : n.Marks p) (message : List Text) :
    Blames n (fail p message : Compiled γ) := by
  intro f hf
  cases hf
  exact hp

theorem Blames.bind (hx : Blames n x) {k : γ → Compiled δ} (hk : ∀ a, Blames n (k a)) :
    Blames n (x >>= k) := by
  intro f hf
  rcases except_bind_eq_error.mp hf with hf | ⟨a, -, hf⟩
  · exact hx f hf
  · exact hk a f hf

theorem Blames.of_part (h : Blames part x) (hpart : part.Part n) : Blames n x :=
  fun f hf => (h f hf).of_part hpart

/-- Mentioning a tree goes wrong for other reasons only. -/
theorem blames_mention (m : Node) (L : Legend) : Blames n (m.mention L) := by
  intro f hf
  unfold Node.mention at hf
  split at hf <;> simp at hf

theorem blames_fail_mention {p : Position} (hp : n.Marks p) (m : Node) (L : Legend)
    (message : Text → List Text) :
    Blames n (do
      let t ← m.mention L
      fail p (message t) : Compiled γ) :=
  (blames_mention m L).bind fun _ => blames_fail hp _

end Compiled

open Compiled (Blames blames_ok blames_fail blames_fail_mention)

namespace Pattern

mutual

theorem blames_compile (L : Legend) (literals : List Text) :
    ∀ (n : Node) (depth : Nat) (vars : Bindings Nat), Blames n (compile L literals depth n vars)
  | .absent, _, _ => blames_fail (Node.marks_position .absent) _
  | .leaf t, depth, vars => by
    unfold compile
    split_ifs
    · exact blames_ok _
    · exact blames_ok _
    · exact blames_ok _
    · exact blames_fail (Node.marks_position (.leaf t)) _
    · exact blames_ok _
  | .form ns, depth, vars => by
    unfold compile
    have hitems := blames_compileItems L literals ns depth ns false vars
      (fun n hn => .item hn .self) .self
    exact hitems.bind fun _ => blames_ok _

theorem blames_compileItems (L : Legend) (literals : List Text) :
    ∀ (ns : List Node) (depth : Nat) (whole : List Node) (repeats : Bool) (vars : Bindings Nat)
      {root : Node}, (∀ n ∈ ns, n.Part root) → (Node.form whole).Part root →
        Blames root (compileItems L literals depth whole repeats ns vars)
  | [], _, _, _, _, _, _, _ => by
    unfold compileItems
    exact blames_ok _
  | [n], depth, _, _, vars, _, hns, _ => by
    unfold compileItems
    have hn := (blames_compile L literals n depth vars).of_part (hns n List.mem_cons_self)
    exact hn.bind fun _ => blames_ok _
  | n :: m :: rest, depth, whole, repeats, vars, _, hns, hwhole => by
    simp only [List.forall_mem_cons] at hns
    unfold compileItems
    split_ifs
    · exact blames_fail ((Node.marks_position _).of_part hwhole) _
    · exact ((blames_compile L literals n (depth + 1) vars).of_part hns.1).bind fun _ =>
        (blames_compileItems L literals rest depth whole true _ hns.2.2 hwhole).bind
          fun _ => blames_ok _
    · have hrest : ∀ k ∈ m :: rest, k.Part _ := List.forall_mem_cons.mpr hns.2
      exact ((blames_compile L literals n depth vars).of_part hns.1).bind fun _ =>
        (blames_compileItems L literals (m :: rest) depth whole repeats _ hrest hwhole).bind
          fun _ => blames_ok _

end

end Pattern

namespace Template

mutual

theorem blames_compile (L : Legend) (vars : Bindings Nat) :
    ∀ (n : Node) (depth : Nat), Blames n (compile L vars depth n)
  | .absent, _ => blames_fail (Node.marks_position .absent) _
  | .leaf t, depth => by
    unfold compile
    split_ifs
    · exact blames_ok _
    · split
      · exact blames_ok _
      · split_ifs
        · exact blames_fail (Node.marks_position (.leaf t)) _
        · exact blames_ok _
  | .form ns, depth => by
    unfold compile
    exact (blames_compileItems L vars ns depth fun n hn => .item hn .self).bind
      fun _ => blames_ok _

theorem blames_compileItems (L : Legend) (vars : Bindings Nat) :
    ∀ (ns : List Node) (depth : Nat) {root : Node}, (∀ n ∈ ns, n.Part root) →
      Blames root (compileItems L vars depth ns)
  | [], _, _, _ => by
    unfold compileItems
    exact blames_ok _
  | [n], depth, _, hns => by
    unfold compileItems
    exact ((blames_compile L vars n depth).of_part (hns n List.mem_cons_self)).bind
      fun _ => blames_ok _
  | n :: m :: rest, depth, _, hns => by
    simp only [List.forall_mem_cons] at hns
    unfold compileItems
    split_ifs
    · refine ((blames_compile L vars n (depth + 1)).of_part hns.1).bind fun u => ?_
      split
      · exact blames_fail_mention ((Node.marks_position n).of_part hns.1) _ _ _
      · exact (blames_compileItems L vars rest depth hns.2.2).bind fun _ => blames_ok _
    · have hrest : ∀ k ∈ m :: rest, k.Part _ := List.forall_mem_cons.mpr hns.2
      exact ((blames_compile L vars n depth).of_part hns.1).bind fun _ =>
        (blames_compileItems L vars (m :: rest) depth hrest).bind fun _ => blames_ok _

end

end Template

namespace Transformation

theorem blames_clause (L : Legend) (literals : List Text) (form : Node) :
    Blames form (Clause.compile L literals form) := by
  rw [Clause.compile_eq]
  split
  · rename_i head operands template
    have hwhole : (Node.form (head :: operands)).Part
        (.form [.form (head :: operands), template]) := .item (by simp) .self
    have hitems : ∀ n ∈ head :: operands, n.Part (.form [.form (head :: operands), template]) :=
      fun n hn => Part.trans (.item hn .self) hwhole
    refine (Pattern.blames_compileItems L literals _ 0 _ false [] hitems hwhole).bind fun r => ?_
    exact ((Template.blames_compile L r.2 template 0).of_part (.item (by simp) .self)).bind
      fun _ => blames_ok _
  · exact blames_fail_mention (Node.marks_position _) _ _ _
  · exact blames_fail_mention (Node.marks_position _) _ _ _

theorem blames_compileAll (L : Legend) (literals : List Text) :
    ∀ {forms : List Node} {root : Node}, (∀ n ∈ forms, n.Part root) →
      Blames root (Clause.compileAll L literals forms)
  | [], _, _ => blames_ok _
  | n :: ns, _, hforms => by
    rw [List.forall_mem_cons] at hforms
    exact ((blames_clause L literals n).of_part hforms.1).bind fun _ =>
      (blames_compileAll L literals hforms.2).bind fun _ => blames_ok _

theorem blames_literalNames (L : Legend) : ∀ {ns : List Node} {root : Node},
    (∀ n ∈ ns, n.Part root) → Blames root (literalNames L ns)
  | [], _, _ => blames_ok _
  | n :: ns, _, hns => by
    rw [List.forall_mem_cons] at hns
    unfold literalNames
    split
    · exact (blames_literalNames L hns.2).bind fun _ => blames_ok _
    · exact blames_fail_mention ((Node.marks_position n).of_part hns.1) _ _ _

/-- What is wrong with the description of a form has the position of a part of it. -/
theorem blames_compile (L : Legend) (keyword : Text) (spec : Node) :
    Blames spec (compile L keyword spec) := by
  rw [compile_eq]
  split
  · rename_i head literals forms
    split_ifs
    · split
      · rename_i names
        have hnames : ∀ n ∈ names, n.Part (.form (head :: .form names :: forms)) :=
          fun n hn => .item (by simp) (.item hn .self)
        have hforms : ∀ n ∈ forms, n.Part (.form (head :: .form names :: forms)) :=
          fun n hn => .item (by simp [hn]) .self
        exact (blames_literalNames L hnames).bind fun _ =>
          (blames_compileAll L _ hforms).bind fun _ => blames_ok _
      · exact blames_fail_mention (Node.marks_position _) _ _ _
    · exact blames_fail_mention (Node.marks_position _) _ _ _
  · exact blames_fail_mention (Node.marks_position _) _ _ _

end Transformation

/-! ### Special forms -/

namespace Machine

variable {M : Machine σ} {self : Recur σ} {scope : Scope} {operands : List Node} {s t : Store σ}
  {f : Fault}

/-- The form is refused for how its operands look, without anything being evaluated. -/
def Rejects (M : Machine σ) (x : Transformer) (operands : List Node) (scope : Scope) (s : Store σ)
    (f : Fault) : Prop :=
  ∀ self : Recur σ, expand M self x operands scope s = .done (.ofFault f) s

/-- An action that can end with a report only by leaving the store alone, and then with the position
of a part of the tree. -/
def Reproves (n : Node) (x : Action σ Node) : Prop :=
  ∀ s f t, x s = .done (.ofFault f) t → t = s ∧ n.Marks f.pos

theorem reproves_malformed {n : Node} {p : Position} (hp : n.Marks p) (message : List Text) :
    Reproves n (pure (.malformed p message) : Action σ Node) := by
  intro s f t h
  obtain ⟨hn, rfl⟩ := Outcome.done.inj h
  rw [← Node.ofFault_inj.mp hn]
  exact ⟨rfl, hp⟩

theorem reproves_malformed_mention {n : Node} {p : Position} (hp : n.Marks p) (m : Node)
    (message : Text → List Text) :
    Reproves n (do
      let t ← mention M m
      return Node.malformed p (message t)) := by
  intro s f t h
  simp only [mention, bind, Action.bind, Action.legend, Action.ofExcept] at h
  cases htext : m.text (s.legend M.host) with
  | ok u =>
    simp only [htext] at h
    exact reproves_malformed hp _ s f t h
  | error message => simp [htext, Action.raise] at h

theorem reproves_of_ne {n : Node} {x : Action σ Node} (h : ∀ s f t, x s ≠ .done (.ofFault f) t) :
    Reproves n x := fun s f t hx => absurd hx (h s f t)

theorem reproves_compiled {γ : Type} {n : Node} {x : Compiled γ} (hx : Blames n x)
    {k : γ → Action σ Node} (hk : ∀ a, Reproves n (k a)) : Reproves n (compiled x k) := by
  intro s f t h
  unfold compiled at h
  split at h
  · exact hk _ s f t h
  · rename_i g
    obtain ⟨hn, rfl⟩ := Outcome.done.inj h
    rw [← Node.ofFault_inj.mp hn]
    exact ⟨rfl, hx g rfl⟩
  · simp [Action.raise] at h

theorem reproves_binding {n : Node} (name : Token) (value : Node) :
    Reproves n (binding name value : Action σ Node) :=
  reproves_of_ne fun s f t h => by
    have hn := (Outcome.done.inj h).1
    simp [Node.ofFault] at hn

theorem reproves_expandDefine (operands : List Node) :
    Reproves (.form operands) (expandDefine M operands) := by
  rw [expandDefine_eq]
  split
  · split
    · exact reproves_binding _ _
    · exact reproves_malformed_mention ((Node.marks_position _).of_mem (by simp)) _ _
  · exact reproves_malformed (Node.marks_all _) _

theorem blames_parameters (L : Legend) {p : Position} {root : Node} (hp : root.Marks p) :
    ∀ {ns : List Node}, (∀ n ∈ ns, n.Part root) → Blames root (parameters L p ns)
  | [], _ => blames_ok _
  | n :: ns, hns => by
    rw [List.forall_mem_cons] at hns
    rw [parameters_cons]
    split
    · exact blames_fail_mention hp _ _ _
    · rename_i t ht
      obtain ⟨rfl, -⟩ := Node.identifier_eq_some ht
      have hword := (Node.marks_position (.leaf t)).of_part hns.1
      split_ifs
      · split
        · split
          · exact blames_ok _
          · exact blames_fail hword _
        · exact blames_fail hword _
      · exact (blames_parameters L hp hns.2).bind fun _ => blames_ok _

theorem reproves_expandLambda (scope : Scope) (operands : List Node) :
    Reproves (.form operands) (expandLambda M scope operands) := by
  rw [expandLambda_eq]
  split
  · exact reproves_malformed (Node.marks_all []) _
  · rename_i params trees
    have hlist : (Node.form params).Part (.form (.form params :: trees)) := .item (by simp) .self
    have hparams : ∀ n ∈ params, n.Part (.form (.form params :: trees)) :=
      fun n hn => Part.trans (.item hn .self) hlist
    intro s f t h
    refine reproves_compiled (blames_parameters _ ((Node.marks_all params).of_part hlist) hparams)
      (fun r => reproves_of_ne fun s f t h => ?_) s f t h
    exact Node.ofValue_ne_ofFault rfl _ f (Outcome.done.inj h).1
  · exact reproves_malformed_mention ((Node.marks_position _).of_mem (by simp)) _ _

/-- Clauses are only ever refused with the position of one of them. -/
theorem nested_cases {otherwise : Node} : ∀ {cs : List Node} {n : Node},
    (nested otherwise cs = .ok n → n = otherwise ∨ ∃ ns, n = .form ns) ∧
      (nested otherwise cs = .error n → ∃ c ∈ cs, ∃ message, n = .malformed c.position message)
  | [], n => by
    refine ⟨fun h => Or.inl ?_, by simp [nested]⟩
    simpa [nested] using h.symm
  | c :: cs, n => by
    unfold nested
    cases hrest : nested otherwise cs with
    | error m =>
      refine ⟨by simp, fun h => ?_⟩
      cases h
      obtain ⟨d, hd, message, hm⟩ := nested_cases.2 hrest
      exact ⟨d, List.mem_cons_of_mem _ hd, message, hm⟩
    | ok others =>
      dsimp only
      split
      · split_ifs
        · exact ⟨fun h => Or.inr ⟨_, (Except.ok.inj h).symm⟩, by simp⟩
        · refine ⟨by simp, fun h => ⟨_, List.mem_cons_self, _, (Except.error.inj h).symm⟩⟩
        · exact ⟨fun h => Or.inr ⟨_, (Except.ok.inj h).symm⟩, by simp⟩
      · exact ⟨by simp, fun h => ⟨_, List.mem_cons_self, _, (Except.error.inj h).symm⟩⟩

theorem reproves_expandCond (operands : List Node) :
    Reproves (.form operands) (expandCond operands : Action σ Node) := by
  rw [expandCond_eq]
  unfold conditionals
  split
  · rename_i n hn
    refine reproves_of_ne fun s f t h => ?_
    have hf : n = .ofFault f := (Outcome.done.inj h).1
    rcases nested_cases.1 hn with rfl | ⟨ns, rfl⟩
    · exact Node.ofValue_ne_ofFault rfl _ f hf
    · simp [Node.ofFault] at hf
  · rename_i n hn
    obtain ⟨c, hc, message, rfl⟩ := nested_cases.2 hn
    exact reproves_malformed ((Node.marks_position c).of_mem hc) _

theorem reproves_expandQuote (hclean : ∀ n ∈ operands, ∀ k, (n.datum.settled k).1.isError = false) :
    Reproves (.form operands) (expandQuote operands : Action σ Node) := by
  rw [expandQuote_eq]
  split
  · rename_i n
    refine reproves_of_ne fun s f t h => ?_
    exact Node.ofValue_ne_ofFault (hclean n (by simp) s.stamps) _ f (Outcome.done.inj h).1
  · exact reproves_malformed (Node.marks_all _) _

theorem reproves_expandDefineForm (operands : List Node) :
    Reproves (.form operands) (expandDefineForm M operands) := by
  rw [expandDefineForm_eq]
  split
  · rename_i target spec
    split
    · intro s f t h
      have hspec : spec.Part (.form [target, spec]) := .item (by simp) .self
      refine reproves_compiled ((Transformation.blames_compile _ _ spec).of_part hspec)
        (fun x => reproves_of_ne fun s f t h => ?_) s f t h
      have hn := (Outcome.done.inj h).1
      simp [Node.ofFault] at hn
    · exact reproves_malformed_mention ((Node.marks_position _).of_mem (by simp)) _ _
  · exact reproves_malformed (Node.marks_all _) _

/-! ### What a form is replaced by -/

/-- Only a conditional evaluates anything before it is replaced. -/
theorem expand_congr {x : Transformer} (hx : x.expander ≠ .special .conditional)
    (heager : x.expander ≠ .eager) (self self' : Recur σ) :
    expand M self x operands scope = expand M self' x operands scope := by
  unfold expand
  split
  · exact absurd ‹_› hx
  · rfl
  · rfl
  · rfl
  · rfl
  · rfl
  · rfl
  · rfl
  · exact absurd ‹_› heager

/-- If a report takes the place of a conditional, the fault in it is the value of the test. -/
theorem eval_of_reported {test : Node} {u : Store σ} {g : Fault}
    (heval : self.eval scope test s = .done (.error g) u)
    (h : (pure (.ofFault g) : Action σ Node) u = .done (.ofFault f) t) :
    self.eval scope test s = .done (.error f) t := by
  obtain ⟨hn, rfl⟩ := Outcome.done.inj h
  rwa [← Node.ofFault_inj.mp hn]

/-- A conditional is replaced by a report if its test fails, or if it has the wrong number of
operands. -/
theorem expandConditional_ofFault (hops : ∀ n ∈ operands, n ≠ .ofFault f)
    (h : expandConditional self scope operands s = .done (.ofFault f) t) :
    (∃ test branches, operands = test :: branches ∧ (branches.length = 1 ∨ branches.length = 2) ∧
      self.eval scope test s = .done (.error f) t) ∨
    (∀ self' : Recur σ, expandConditional self' scope operands s = .done (.ofFault f) s) ∧
      (Node.form operands).Marks f.pos ∧ t = s := by
  rw [expandConditional_eq] at h
  split at h
  · rename_i test yes
    refine Or.inl ⟨test, [yes], rfl, Or.inl rfl, ?_⟩
    obtain ⟨v, u, heval, h⟩ := Action.bind_eq_done.mp h
    split at h
    · exact eval_of_reported heval h
    · refine absurd (Outcome.done.inj h).1 ?_
      split_ifs
      · exact hops yes (by simp)
      · exact Node.ofValue_ne_ofFault rfl _ f
  · rename_i test yes no
    refine Or.inl ⟨test, [yes, no], rfl, Or.inr rfl, ?_⟩
    obtain ⟨v, u, heval, h⟩ := Action.bind_eq_done.mp h
    split at h
    · exact eval_of_reported heval h
    · refine absurd (Outcome.done.inj h).1 ?_
      split_ifs
      · exact hops yes (by simp)
      · exact hops no (by simp)
  · rename_i hone htwo
    obtain ⟨rfl, hmarks⟩ := reproves_malformed (Node.marks_all operands) _ s f t h
    refine Or.inr ⟨fun self' => ?_, hmarks, rfl⟩
    rw [expandConditional_eq]
    split
    · exact absurd rfl (hone _ _)
    · exact absurd rfl (htwo _ _ _)
    · exact h

open Policy

theorem isError_of_held_leaf {e : Extent} {t : Token} (h : (faultless σ).NodeHeld e (.leaf t)) :
    t.value.isError = false := by
  cases h with
  | leaf ht =>
    rcases ht with ⟨-, name, hname⟩ | hv
    · simp [hname, Value.isError]
    · exact (faultless_of_held hv).isError

theorem ne_ofFault_of_held {e : Extent} {n : Node} (h : (faultless σ).NodeHeld e n) (f : Fault) :
    n ≠ .ofFault f := by
  rintro rfl
  have hvalue := isError_of_held_leaf h
  simp [Value.isError] at hvalue

/-- Where no faults are at hand, any other form is replaced by a report only if it is refused. -/
theorem reproves_expand {e : Extent} {x : Transformer}
    (hx : (faultless σ).ExpanderHeld e x.expander) (hcond : x.expander ≠ .special .conditional)
    (hops : ∀ n ∈ operands, (faultless σ).NodeHeld e n) :
    Reproves (.form operands) (expand M self x operands scope) := by
  unfold expand
  split
  · exact absurd ‹_› hcond
  · exact reproves_expandDefine operands
  · exact reproves_expandLambda scope operands
  · exact reproves_expandCond operands
  · refine reproves_expandQuote fun n hn k => ?_
    have hdatum := held_datum (faultless_admits M) (hops n hn)
    exact (faultless_of_held (Value.Every.settled hdatum k)).isError
  · exact reproves_expandDefineForm operands
  · rename_i d hkind
    rw [hkind] at hx
    have hclauses : ∀ c ∈ d.clauses, c.template.MadeOf ((faultless σ).TokenHeld e) :=
      fun c hc => (hx.1 c hc).madeOf
    have hmade : ∀ n ∈ operands, n.MadeOf ((faultless σ).TokenHeld e) :=
      fun n hn => nodeHeld_iff.mp (hops n hn)
    intro u g v hg
    rcases d.rewrite_cases (u.legend M.host) operands with hwritten | ⟨⟨message, hfails⟩, -⟩
    · simp only [bind, Action.bind, Action.legend, hwritten] at hg
      rcases Transformation.madeOf_written hclauses hmade (u.legend M.host) with
        hheld | ⟨message, hmessage⟩
      · exact absurd (Outcome.done.inj hg).1 (ne_ofFault_of_held (nodeHeld_iff.mpr hheld) g)
      · rw [hmessage] at hg
        exact reproves_malformed (Node.marks_all operands) _ u g v hg
    · simp only [bind, Action.bind, Action.legend, hfails] at hg
      cases hg
  · rename_i hkind
    rw [hkind] at hx
    exact absurd hx id
  · rename_i hkind
    rw [hkind] at hx
    exact absurd hx id

/-- **Refusals have a position in the operands.** Where no faults are at hand, a form is replaced by
the report of a fault only if it is a conditional and that is how its test ends, or if it is refused
without anything being evaluated, and then the report has the position of a part of the operands. -/
theorem expand_ofFault {e : Extent} {x : Transformer}
    (hx : (faultless σ).ExpanderHeld e x.expander)
    (hops : ∀ n ∈ operands, (faultless σ).NodeHeld e n)
    (h : expand M self x operands scope s = .done (.ofFault f) t) :
    (∃ test branches, x.expander = .special .conditional ∧ operands = test :: branches ∧
      (branches.length = 1 ∨ branches.length = 2) ∧
      self.eval scope test s = .done (.error f) t) ∨
    M.Rejects x operands scope s f ∧ (Node.form operands).Marks f.pos ∧ t = s := by
  by_cases hcond : x.expander = .special .conditional
  · have hexpand (self' : Recur σ) :
        expand M self' x operands scope = expandConditional self' scope operands := by
      simp only [expand, hcond]
    have hreport : ∀ n ∈ operands, n ≠ .ofFault f := fun n hn => ne_ofFault_of_held (hops n hn) f
    rw [hexpand] at h
    rcases expandConditional_ofFault hreport h with ⟨test, branches, hrest⟩ | ⟨hall, hrest⟩
    · exact Or.inl ⟨test, branches, hcond, hrest⟩
    · exact Or.inr ⟨fun self' => by rw [hexpand, hall], hrest⟩
  · have heager : x.expander ≠ .eager := fun heager => by
      rw [heager] at hx
      exact hx
    obtain ⟨rfl, hmarks⟩ := reproves_expand hx hcond hops s f t h
    exact Or.inr ⟨fun self' => by rw [expand_congr hcond heager self' self, h], hmarks, rfl⟩

end Machine

end LittleLisp
