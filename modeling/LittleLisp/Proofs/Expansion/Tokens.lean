/-
# What expansions are made of

A user-defined form makes no tokens of its own. A template keeps tokens of the tree that it was
compiled from, a match remembers parts of the operands, and writing a template out puts the two
together. So whatever all tokens of the description and of the operands have in common, all tokens
of an expansion have too.

Key definitions: `Node.MadeOf`, `Template.MadeOf`, `Matches.MadeOf`.
Key theorems: `Template.madeOf_compile`, `Transformation.madeOf_compile`, `Matches.MadeOf.unify?`,
`Matches.MadeOf.expand?`, `Transformation.madeOf_written`.
-/
import LittleLisp.Proofs.Expansion

namespace LittleLisp

variable {T : Token → Prop}

/-- All tokens of a tree have the property `T`. -/
inductive Node.MadeOf (T : Token → Prop) : Node → Prop where
  | absent : MadeOf T .absent
  | leaf {t : Token} (h : T t) : MadeOf T (.leaf t)
  | form {ns : List Node} (h : ∀ n ∈ ns, MadeOf T n) : MadeOf T (.form ns)

theorem Node.madeOf_leaf {t : Token} : (Node.leaf t).MadeOf T ↔ T t :=
  ⟨fun | .leaf h => h, .leaf⟩

theorem Node.madeOf_form {ns : List Node} : (Node.form ns).MadeOf T ↔ ∀ n ∈ ns, n.MadeOf T :=
  ⟨fun | .form h => h, .form⟩

/-- All tokens that a template writes as they are have the property `T`. -/
inductive Template.MadeOf (T : Token → Prop) : Template → Prop where
  | leaf {t : Token} (h : T t) : MadeOf T (.leaf t)
  | hole {name : Text} {depth : Nat} : MadeOf T (.variable name depth)
  | list {us : List Template} (h : ∀ u ∈ us, MadeOf T u) : MadeOf T (.list us)
  | repeated {driver : Text} {u : Template} (h : MadeOf T u) : MadeOf T (.repeated driver u)

/-! ### Compiling -/

namespace Template

open Reference

variable {L : Legend} {bs : Bindings Nat}

theorem madeOf_compile_all :
    (∀ (n : Node) (depth : Nat) (u : Template), n.MadeOf T →
      Template.compile L bs depth n = .ok u → u.MadeOf T) ∧
    ∀ (ns : List Node) (depth : Nat) (us : List Template), (∀ n ∈ ns, n.MadeOf T) →
      Template.compileItems L bs depth ns = .ok us → ∀ u ∈ us, u.MadeOf T := by
  refine itemInduction ?absent ?leaf ?form ?nil ?repeated ?plain
  case absent =>
    intro depth u _ h
    simp [Template.compile, Compiled.fail] at h
  case leaf =>
    intro t depth u ht h
    rcases template_leaf h with ⟨rfl, -⟩ | ⟨d, -, -, -, rfl⟩
    · exact .leaf (Node.madeOf_leaf.mp ht)
    · exact .hole
  case form =>
    intro ns ih depth u hns h
    obtain ⟨us, hus, rfl⟩ := template_form h
    exact .list (ih depth us (Node.madeOf_form.mp hns) hus)
  case nil =>
    intro depth us _ h
    rw [templateItems_nil h]
    exact fun u hu => absurd hu List.not_mem_nil
  case repeated =>
    intro n m ns hm ihn ihns depth us hns h
    obtain ⟨u, x, vs, hu, -, hvs, rfl⟩ := templateItems_repeated hm h
    simp only [List.forall_mem_cons] at hns
    exact List.forall_mem_cons.mpr ⟨.repeated (ihn _ u hns.1 hu), ihns _ vs hns.2.2 hvs⟩
  case plain =>
    intro n ns hplain ihn ihns depth us hns h
    obtain ⟨u, vs, hu, hvs, rfl⟩ := templateItems_plain hplain h
    rw [List.forall_mem_cons] at hns
    exact List.forall_mem_cons.mpr ⟨ihn _ u hns.1 hu, ihns _ vs hns.2 hvs⟩

/-- The tokens of a template are tokens of the tree it was compiled from. -/
theorem madeOf_compile {n : Node} {depth : Nat} {u : Template} (hn : n.MadeOf T)
    (h : Template.compile L bs depth n = .ok u) : u.MadeOf T :=
  madeOf_compile_all.1 n depth u hn h

end Template

namespace Transformation

open Reference

variable {L : Legend}

theorem madeOf_compileAll {literals : List Text} : ∀ {forms : List Node} {cs : List Clause},
    (∀ n ∈ forms, n.MadeOf T) → Clause.compileAll L literals forms = .ok cs →
      ∀ c ∈ cs, c.template.MadeOf T
  | [], cs, _, h => by
    cases h
    exact fun c hc => absurd hc List.not_mem_nil
  | form :: forms, cs, hforms, h => by
    rw [List.forall_mem_cons] at hforms
    unfold Clause.compileAll at h
    obtain ⟨c, hc, h⟩ := except_bind_eq_ok.mp h
    obtain ⟨ds, hds, h⟩ := except_bind_eq_ok.mp h
    cases h
    obtain ⟨head, patterns, template, ps, bs, u, rfl, -, hu, rfl⟩ := Clause.compile_eq_ok hc
    have htemplate : template.MadeOf T := Node.madeOf_form.mp hforms.1 template (by simp)
    exact List.forall_mem_cons.mpr
      ⟨Template.madeOf_compile htemplate hu, madeOf_compileAll hforms.2 hds⟩

/-- The templates of a user-defined form are made of tokens of its description. -/
theorem madeOf_compile {keyword : Text} {spec : Node} {x : Transformation} (hspec : spec.MadeOf T)
    (h : Transformation.compile L keyword spec = .ok x) : ∀ c ∈ x.clauses, c.template.MadeOf T := by
  refine madeOf_compileAll ?_ (compile_spec h).1
  unfold clausesOf
  split
  · exact fun n hn => Node.madeOf_form.mp hspec n (by simp [hn])
  · exact fun n hn => absurd hn List.not_mem_nil

end Transformation

/-! ### Matching -/

namespace Matches

/-- All trees that a match has found are made of tokens with the property `T`. -/
def MadeOf (T : Token → Prop) (m : Matches) : Prop := ∀ b ∈ m.nodes, b.2.MadeOf T

theorem madeOf_empty : empty.MadeOf T := fun _ hb => absurd hb List.not_mem_nil

theorem MadeOf.unifyEach? {u : Matches → List Nat → Node → Option Matches}
    (hu : ∀ {m path n m'}, m.MadeOf T → n.MadeOf T → u m path n = some m' → m'.MadeOf T)
    (path : List Nat) : ∀ (ns : List Node) (i : Nat) {m m' : Matches}, m.MadeOf T →
      (∀ n ∈ ns, n.MadeOf T) → Matches.unifyEach? u path i ns m = some m' → m'.MadeOf T
  | [], _, _, _, hm, _, h => by
    rw [← Option.some.inj h]
    exact hm
  | n :: ns, i, m, m', hm, hns, h => by
    rw [List.forall_mem_cons] at hns
    unfold Matches.unifyEach? at h
    split at h
    · rename_i m₁ h₁
      exact MadeOf.unifyEach? hu path ns (i + 1) (hu hm hns.1 h₁) hns.2 h
    · simp at h

mutual

/-- A match finds only parts of the tree. -/
theorem MadeOf.unify? : ∀ (p : Pattern) {m : Matches} {path : List Nat} {n : Node} {m' : Matches},
    m.MadeOf T → n.MadeOf T → Matches.unify? p m path n = some m' → m'.MadeOf T
  | .wildcard, m, _, _, _, hm, _, h => by
    unfold Matches.unify? at h
    exact Option.some.inj h ▸ hm
  | .variable name d, m, path, n, m', hm, hn, h => by
    unfold Matches.unify? at h
    rw [← Option.some.inj h]
    intro b hb
    rcases Bindings.mem_insert hb with rfl | hb
    · exact hn
    · exact hm b hb
  | .literal name, m, _, n, _, hm, _, h => by
    unfold Matches.unify? at h
    split at h
    · split_ifs at h
      exact Option.some.inj h ▸ hm
    · simp at h
  | .constant t, m, _, n, _, hm, _, h => by
    unfold Matches.unify? at h
    split at h
    · split_ifs at h
      exact Option.some.inj h ▸ hm
    · simp at h
  | .list items, m, path, n, _, hm, hn, h => by
    unfold Matches.unify? at h
    split at h
    · exact MadeOf.unifyItems? items hm (Node.madeOf_form.mp hn) h
    · simp at h
  | .repeated item, m, path, n, _, hm, hn, h => by
    unfold Matches.unify? at h
    exact MadeOf.unify? item hm hn h

theorem MadeOf.unifyItems? : ∀ (ps : List Pattern) {m : Matches} {path : List Nat}
    {ns : List Node} {m' : Matches}, m.MadeOf T → (∀ n ∈ ns, n.MadeOf T) →
      Matches.unifyItems? ps m path ns = some m' → m'.MadeOf T
  | [], m, _, ns, _, hm, _, h => by
    unfold Matches.unifyItems? at h
    split_ifs at h
    exact Option.some.inj h ▸ hm
  | p :: rest, m, path, ns, m', hm, hns, h => by
    have hp : ∀ {m path n m'}, m.MadeOf T → n.MadeOf T →
        Matches.unify? p m path n = some m' → m'.MadeOf T := MadeOf.unify? p
    by_cases hrep : ∃ item, p = .repeated item
    · obtain ⟨item, rfl⟩ := hrep
      unfold Matches.unifyItems? at h
      split_ifs at h
      dsimp only at h
      split at h
      · rename_i m₁ h₁
        have hm₁ := MadeOf.unifyEach? hp path _ 0 hm (fun k hk => hns k (List.mem_of_mem_take hk)) h₁
        refine MadeOf.unifyItems? rest ?_ (fun k hk => hns k (List.mem_of_mem_drop hk)) h
        simpa [MadeOf, nodes_count] using hm₁
      · simp at h
    · have hplain : ∀ q, p ≠ .repeated q := fun q hq => hrep ⟨q, hq⟩
      cases ns with
      | nil => simp [unifyItems?_plain_nil hplain] at h
      | cons n ns =>
        rw [List.forall_mem_cons] at hns
        rw [unifyItems?_plain hplain] at h
        obtain ⟨m₁, h₁, h₂⟩ := Option.bind_eq_some_iff.mp h
        exact MadeOf.unifyItems? rest (hp hm hns.1 h₁) hns.2 h₂

end

/-! ### Writing out -/

theorem madeOf_expandEach {u : List Nat → Option Node}
    (hu : ∀ path n, u path = some n → n.MadeOf T) (path : List Nat) :
    ∀ (k i : Nat) {ns : List Node}, expandEach? u path i k = some ns → ∀ n ∈ ns, n.MadeOf T
  | 0, _, ns, h => by
    rw [← Option.some.inj h]
    simp
  | k + 1, i, ns, h => by
    simp only [expandEach?, Option.bind_eq_bind, Option.bind_eq_some_iff] at h
    obtain ⟨n, hn, more, hmore, hns⟩ := h
    rw [← Option.some.inj hns]
    exact List.forall_mem_cons.mpr ⟨hu _ n hn, madeOf_expandEach hu path k (i + 1) hmore⟩

/-- The items of a list are written out with what each of them is. -/
theorem madeOf_expandItems {m : Matches} : ∀ (us : List Template) {path : List Nat}
    {ns : List Node}, (∀ u ∈ us, ∀ path n, m.expand? u path = some n → n.MadeOf T) →
      m.expandItems? us path = some ns → ∀ n ∈ ns, n.MadeOf T
  | [], _, ns, _, h => by
    simp only [expandItems?] at h
    rw [← Option.some.inj h]
    simp
  | u :: us, path, ns, ih, h => by
    rw [List.forall_mem_cons] at ih
    by_cases hrep : ∃ d q, u = .repeated d q
    · obtain ⟨d, q, rfl⟩ := hrep
      unfold expandItems? at h
      dsimp only at h
      split_ifs at h
      simp only [Option.bind_eq_bind, Option.bind_eq_some_iff] at h
      obtain ⟨rs, hrs, more, hmore, hns⟩ := h
      rw [← Option.some.inj hns]
      have hq := madeOf_expandEach (fun path n => ih.1 path n) path _ 0 hrs
      exact List.forall_mem_append.mpr ⟨hq, madeOf_expandItems us ih.2 hmore⟩
    · rw [expandItems?_plain fun d q hq => hrep ⟨d, q, hq⟩] at h
      obtain ⟨n, hn, h⟩ := Option.bind_eq_some_iff.mp h
      obtain ⟨more, hmore, rfl⟩ := Option.map_eq_some_iff.mp h
      exact List.forall_mem_cons.mpr ⟨ih.1 path n hn, madeOf_expandItems us ih.2 hmore⟩

theorem MadeOf.expand? {m : Matches} (hm : m.MadeOf T) {u : Template} (hu : u.MadeOf T) :
    ∀ path n, m.expand? u path = some n → n.MadeOf T := by
  induction hu with
  | leaf ht =>
    intro path n h
    simp only [Matches.expand?] at h
    exact Option.some.inj h ▸ .leaf ht
  | hole =>
    intro path n h
    simp only [Matches.expand?] at h
    exact hm _ (Bindings.mem_of_find? h)
  | @list us _ ih =>
    intro path n h
    simp only [Matches.expand?, Option.bind_eq_bind, Option.bind_eq_some_iff] at h
    obtain ⟨ns, hns, hn⟩ := h
    exact Option.some.inj hn ▸ .form (madeOf_expandItems us ih hns)
  | repeated _ ih =>
    intro path n h
    simp only [Matches.expand?] at h
    exact ih path n h

end Matches

namespace Transformation

/-- What the clause that is selected matched is made of the tokens of the operands. -/
theorem madeOf_select {operands : List Node} (hops : ∀ n ∈ operands, n.MadeOf T) :
    ∀ {cs : List Clause} {c : Clause} {m : Matches}, select? operands cs = some (c, m) →
      m.MadeOf T
  | [], _, _, h => by simp [select?] at h
  | d :: cs, c, m, h => by
    unfold select? at h
    split at h
    · rename_i m₁ h₁
      cases h
      exact Matches.madeOf_empty.unifyItems? _ hops h₁
    · exact madeOf_select hops h

/-- What a form is replaced by is made of tokens of the templates and of the operands, unless it is
the report of a malformed form. -/
theorem madeOf_written {x : Transformation} (hx : ∀ c ∈ x.clauses, c.template.MadeOf T)
    {operands : List Node} (hops : ∀ n ∈ operands, n.MadeOf T) (L : Legend) :
    (x.written L operands).MadeOf T ∨
      ∃ message, x.written L operands = .malformed (Node.positionOfAll operands) message := by
  unfold written
  split
  · exact Or.inr ⟨_, rfl⟩
  · rename_i c m h
    have hm := madeOf_select hops h
    split
    · rename_i n hn
      exact Or.inl (hm.expand? (hx c (mem_of_select? h)) [] n hn)
    · exact Or.inr ⟨_, rfl⟩

end Transformation

end LittleLisp
