/-
# Policies and user-defined forms

A template is made of tokens of the form that describes it, and an expansion of tokens of
the template and of operands. So if all of these may be held, what a form is replaced by
may be held, or it reports a fault that evaluation itself has found.

Key definitions: `Policy.CompiledHeld`, `Policy.MatchesHeld`.
Key theorems: `Policy.compiled_transformation`, `Policy.nodeResult_written`.
-/
import LittleLisp.Proofs.Expansion.Tokens
import LittleLisp.Proofs.Policy.Data

namespace LittleLisp

namespace Policy

variable {σ : Type} {P : Policy σ} {M : Machine σ} {e : Extent}

/-- How a compilation may end: with something that satisfies `Q`, with a fault that may be reported,
or with an alarm that may be raised. -/
def CompiledHeld {α : Type} (P : Policy σ) (Q : α → Prop) : Compiled α → Prop
  | .ok a => Q a
  | .error (.fault f) => P.reports f
  | .error (.native message) => P.raises (.native message)

theorem CompiledHeld.bind {α β : Type} {x : Compiled α} {f : α → Compiled β} {Q : α → Prop}
    {R : β → Prop} (hx : P.CompiledHeld Q x) (hf : ∀ a, Q a → P.CompiledHeld R (f a)) :
    P.CompiledHeld R (x >>= f) := by
  cases x with
  | ok a => exact hf a hx
  | error alarm =>
    cases alarm with
    | fault f => exact hx
    | native message => exact hx

/-- What is known of everything that a compilation may give is known of what it gives. -/
theorem CompiledHeld.imp {α : Type} {x : Compiled α} {Q R : α → Prop} (hx : P.CompiledHeld Q x)
    (h : ∀ a, x = .ok a → Q a → R a) : P.CompiledHeld R x := by
  cases x with
  | ok a => exact h a rfl hx
  | error alarm =>
    cases alarm with
    | fault f => exact hx
    | native message => exact hx

section Compiling

variable (hP : P.Admits M)

include hP

theorem compiled_fail {α : Type} {Q : α → Prop} (p : Position) (message : List Text) :
    P.CompiledHeld Q (Compiled.fail p message) :=
  hP.internal (by simp [Fault.placed])

theorem compiled_mention {n : Node} (hn : P.NodeHeld e n) (L : Legend) :
    P.CompiledHeld (fun _ => True) (n.mention L) := by
  unfold Node.mention
  cases h : n.text L with
  | ok t => trivial
  | error m => exact raises_of_text hP hn h

/-- A failure whose message mentions a tree. -/
theorem compiled_fail_mention {α : Type} {Q : α → Prop} {n : Node} (hn : P.NodeHeld e n)
    (L : Legend) (p : Position) (message : Text → List Text) :
    P.CompiledHeld Q (do
      let t ← n.mention L
      Compiled.fail p (message t)) :=
  (compiled_mention hP hn L).bind fun _ _ => compiled_fail hP p _

mutual

theorem compiled_pattern (L : Legend) (literals : List Text) :
    ∀ (n : Node) (depth : Nat) (vars : Bindings Nat),
      P.CompiledHeld (fun _ => True) (Pattern.compile L literals depth n vars)
  | .absent, _, _ => compiled_fail hP _ _
  | .leaf t, depth, vars => by
    unfold Pattern.compile
    split_ifs
    · trivial
    · trivial
    · trivial
    · exact compiled_fail hP _ _
    · trivial
  | .form ns, depth, vars => by
    unfold Pattern.compile
    exact (compiled_patternItems L literals ns depth ns false vars).bind fun _ _ => trivial

theorem compiled_patternItems (L : Legend) (literals : List Text) :
    ∀ (ns : List Node) (depth : Nat) (whole : List Node) (repeats : Bool) (vars : Bindings Nat),
      P.CompiledHeld (fun _ => True) (Pattern.compileItems L literals depth whole repeats ns vars)
  | [], _, _, _, _ => by
    unfold Pattern.compileItems
    trivial
  | [n], depth, _, _, vars => by
    unfold Pattern.compileItems
    exact (compiled_pattern L literals n depth vars).bind fun _ _ => trivial
  | n :: m :: rest, depth, whole, repeats, vars => by
    unfold Pattern.compileItems
    split_ifs
    · exact compiled_fail hP _ _
    · exact (compiled_pattern L literals n (depth + 1) vars).bind fun _ _ =>
        (compiled_patternItems L literals rest depth whole true _).bind fun _ _ => trivial
    · exact (compiled_pattern L literals n depth vars).bind fun _ _ =>
        (compiled_patternItems L literals (m :: rest) depth whole repeats _).bind fun _ _ => trivial

end

mutual

/-- The tokens of a template are tokens of the tree it was compiled from. -/
theorem compiled_template (L : Legend) (vars : Bindings Nat) :
    ∀ (n : Node) (depth : Nat), P.NodeHeld e n →
      P.CompiledHeld (P.TemplateHeld e) (Template.compile L vars depth n)
  | .absent, _, _ => compiled_fail hP _ _
  | .leaf t, depth, .leaf ht => by
    unfold Template.compile
    split_ifs
    · exact .leaf ht
    · split
      · exact .leaf ht
      · split_ifs
        · exact compiled_fail hP _ _
        · exact .hole
  | .form ns, depth, .form hns => by
    unfold Template.compile
    exact (compiled_templateItems L vars ns depth hns).bind fun _ h => .list h

theorem compiled_templateItems (L : Legend) (vars : Bindings Nat) :
    ∀ (ns : List Node) (depth : Nat), (∀ n ∈ ns, P.NodeHeld e n) →
      P.CompiledHeld (fun ts => ∀ t ∈ ts, P.TemplateHeld e t)
        (Template.compileItems L vars depth ns)
  | [], _, _ => by
    unfold Template.compileItems
    intro t ht
    simp at ht
  | [n], depth, hns => by
    unfold Template.compileItems
    refine (compiled_template L vars n depth (hns n List.mem_cons_self)).bind fun t ht => ?_
    intro u hu
    rw [List.mem_singleton.mp hu]
    exact ht
  | n :: m :: rest, depth, hns => by
    have hn := hns n List.mem_cons_self
    have hrest : ∀ k ∈ m :: rest, P.NodeHeld e k := fun k hk => hns k (List.mem_cons_of_mem _ hk)
    unfold Template.compileItems
    split_ifs
    · refine (compiled_template L vars n (depth + 1) hn).bind fun t ht => ?_
      split
      · exact compiled_fail_mention hP hn L _ _
      · refine (compiled_templateItems L vars rest depth
          fun k hk => hrest k (List.mem_cons_of_mem _ hk)).bind fun ts hts => ?_
        exact List.forall_mem_cons.mpr ⟨.repeated ht, hts⟩
    · refine (compiled_template L vars n depth hn).bind fun t ht => ?_
      refine (compiled_templateItems L vars (m :: rest) depth hrest).bind fun ts hts => ?_
      exact List.forall_mem_cons.mpr ⟨ht, hts⟩

end

theorem compiled_clause (L : Legend) (literals : List Text) {form : Node}
    (hform : P.NodeHeld e form) :
    P.CompiledHeld (fun c => P.TemplateHeld e c.template) (Clause.compile L literals form) := by
  rw [Clause.compile_eq]
  split
  · rename_i head operands template
    cases hform with
    | form hns =>
      refine (compiled_patternItems hP L literals _ 0 _ false []).bind fun c _ => ?_
      exact (compiled_template hP L c.2 template 0 (hns _ (by simp))).bind fun t ht => ht
  · cases hform with
    | form hns => exact compiled_fail_mention hP (hns _ (by simp)) L _ _
  · exact compiled_fail_mention hP hform L _ _

theorem compiled_clauses (L : Legend) (literals : List Text) :
    ∀ ns : List Node, (∀ n ∈ ns, P.NodeHeld e n) →
      P.CompiledHeld (fun cs => ∀ c ∈ cs, P.TemplateHeld e c.template)
        (Clause.compileAll L literals ns)
  | [], _ => by
    intro c hc
    simp at hc
  | n :: ns, hns => by
    unfold Clause.compileAll
    refine (compiled_clause hP L literals (hns n List.mem_cons_self)).bind fun c hc => ?_
    refine (compiled_clauses L literals ns
      fun k hk => hns k (List.mem_cons_of_mem _ hk)).bind fun cs hcs => ?_
    exact List.forall_mem_cons.mpr ⟨hc, hcs⟩

theorem compiled_literalNames (L : Legend) :
    ∀ ns : List Node, (∀ n ∈ ns, P.NodeHeld e n) →
      P.CompiledHeld (fun _ => True) (Transformation.literalNames L ns)
  | [], _ => trivial
  | n :: ns, hns => by
    unfold Transformation.literalNames
    split
    · exact (compiled_literalNames L ns fun k hk => hns k (List.mem_cons_of_mem _ hk)).bind
        fun _ _ => trivial
    · exact compiled_fail_mention hP (hns n List.mem_cons_self) L _ _

/-- A user-defined form may be held if its description may. -/
theorem compiled_transformation (L : Legend) (keyword : Text) {spec : Node}
    (hspec : P.NodeHeld e spec) :
    P.CompiledHeld (fun x => P.ExpanderHeld e (.userDefined x))
      (Transformation.compile L keyword spec) := by
  suffices h : P.CompiledHeld (fun x => ∀ c ∈ x.clauses, P.TemplateHeld e c.template)
      (Transformation.compile L keyword spec) from
    h.imp fun x hcompile hx => ⟨hx, Or.inl (Transformation.bounded_of_compile hcompile)⟩
  rw [Transformation.compile_eq]
  split
  · rename_i head literals forms
    cases hspec with
    | form hns =>
      split_ifs
      · split
        · rename_i names
          have hnames : P.NodeHeld e (.form names) := hns _ (by simp)
          cases hnames with
          | form hnames =>
            refine (compiled_literalNames hP L names hnames).bind fun literals _ => ?_
            refine (compiled_clauses hP L (keyword :: literals) forms
              fun n hn => hns n (by simp [hn])).bind fun cs hcs => ?_
            exact hcs
        · exact compiled_fail_mention hP (hns _ (by simp)) L _ _
      · exact compiled_fail_mention hP (hns _ (by simp)) L _ _
  · exact compiled_fail_mention hP hspec L _ _

end Compiling

/-! ### Expanding -/

/-- Every tree that a match has found may be held. -/
def MatchesHeld (P : Policy σ) (e : Extent) (m : Matches) : Prop := ∀ b ∈ m.nodes, P.NodeHeld e b.2

theorem nodeHeld_iff {n : Node} : P.NodeHeld e n ↔ n.MadeOf (P.TokenHeld e) := by
  constructor <;> intro h
  · induction h with
    | absent => exact .absent
    | leaf ht => exact .leaf ht
    | form _ ih => exact .form ih
  · induction h with
    | absent => exact .absent
    | leaf ht => exact .leaf ht
    | form _ ih => exact .form ih

theorem TemplateHeld.madeOf {t : Template} (h : P.TemplateHeld e t) :
    t.MadeOf (P.TokenHeld e) := by
  induction h with
  | leaf ht => exact .leaf ht
  | hole => exact .hole
  | list _ ih => exact .list ih
  | repeated _ ih => exact .repeated ih

theorem nodeHeld_expand {m : Matches} (hm : P.MatchesHeld e m) {t : Template}
    (ht : P.TemplateHeld e t) (path : List Nat) (n : Node) (h : m.expand? t path = some n) :
    P.NodeHeld e n := by
  have hmade : m.MadeOf (P.TokenHeld e) := fun b hb => nodeHeld_iff.mp (hm b hb)
  exact nodeHeld_iff.mpr (hmade.expand? ht.madeOf path n h)

/-- The matches of the clause that is selected are parts of the operands. -/
theorem matchesHeld_select {operands : List Node} (hops : ∀ n ∈ operands, P.NodeHeld e n)
    {cs : List Clause} {c : Clause} {m : Matches}
    (h : Transformation.select? operands cs = some (c, m)) : P.MatchesHeld e m := by
  have hmade : ∀ n ∈ operands, n.MadeOf (P.TokenHeld e) := fun n hn => nodeHeld_iff.mp (hops n hn)
  exact fun b hb => nodeHeld_iff.mpr (Transformation.madeOf_select hmade h b hb)

/-- What a user-defined form is replaced by. -/
theorem nodeResult_written (hP : P.Admits M) {x : Transformation}
    (hx : ∀ c ∈ x.clauses, P.TemplateHeld e c.template) {operands : List Node}
    (hops : ∀ n ∈ operands, P.NodeHeld e n) (L : Legend) :
    P.NodeResult e (x.written L operands) := by
  unfold Transformation.written
  split
  · exact nodeResult_malformed hP _ _
  · rename_i c m h
    split
    · rename_i n hn
      exact Or.inl (nodeHeld_expand (matchesHeld_select hops h)
        (hx c (Transformation.mem_of_select? h)) [] n hn)
    · exact nodeResult_malformed hP _ _

/-- Where the expansion of a user-defined form fails, that may interrupt the evaluation. -/
theorem raises_of_rewrite {x : Transformation} (hx : P.ExpanderHeld e (.userDefined x))
    {L : Legend} {operands : List Node} {message : Text}
    (h : x.rewrite L operands = .error message) : P.raises (.native message) := by
  rcases hx.2 with hbounded | hall
  · rw [Transformation.rewrite_of_bounded hbounded] at h
    cases h
  · exact hall message

end Policy

end LittleLisp
