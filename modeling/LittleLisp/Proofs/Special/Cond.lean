/-
# Conditionals with many clauses

`cond` is replaced by conditionals nested in each other, one for each clause, and the trees of a
clause become the arguments of a function that gives the last of them. Both are met as values
that their leaves carry, so it does not matter what the module binds `if` and `do` to.

The first clause whose test holds decides: `firstMatch` evaluates the tests in order up to it, and
then its trees. A clause that is no non-empty list, or an `else` before the last clause, makes the
whole form malformed, and then not even the tests before it are evaluated.

Key definitions: `Node.IsElse`, `Alternative`, `Machine.firstMatch`, `MalformedClauses`.
Key theorems: `Machine.cond_is_first_match`.
-/
import LittleLisp.Proofs.Prelude.Forms
import LittleLisp.Proofs.Special

namespace LittleLisp

variable {σ : Type}

/-! ### Clauses -/

/-- The test that always holds: the identifier `else` or the keyword `:else`. -/
def Node.IsElse (n : Node) : Prop :=
  ∃ t : Token, n = .leaf t ∧
    (t.type = .identifier ∧ t.text = "else" ∨ t.type = .keyword ∧ t.text = ":else")

theorem Node.isElse_iff {n : Node} : Machine.isElse n = true ↔ n.IsElse := by
  cases n with
  | leaf t => simp [Machine.isElse, IsElse]
  | absent => simp [Machine.isElse, IsElse]
  | form ns => simp [Machine.isElse, IsElse]

instance (n : Node) : Decidable n.IsElse := decidable_of_iff _ Node.isElse_iff

/-- A clause: a test, and the trees that are evaluated if it holds. -/
structure Alternative where
  test : Node
  trees : List Node

namespace Alternative

/-- The clause as it is written, a non-empty list. -/
def tree (a : Alternative) : Node := .form (a.test :: a.trees)

theorem tree_inj {a b : Alternative} (h : a.tree = b.tree) : a = b := by
  obtain ⟨htest, htrees⟩ : a.test = b.test ∧ a.trees = b.trees := by simpa [tree] using h
  cases a
  cases b
  simp_all only

/-- The trees as the arguments of the function that gives the last of them. -/
def sequence (a : Alternative) : Node :=
  .form (.ofValue (.function Store.doRef) a.tree.position :: a.trees)

/-- What the clause is replaced by, before the replacement of the clauses after it. -/
def choice (a : Alternative) (others : Node) : Node :=
  .form [.ofValue (.transformer Store.conditionalRef) a.tree.position, a.test, a.sequence, others]

theorem position_sequence (a : Alternative) : a.sequence.position = a.tree.position := by
  have htree : a.tree.position =
      if a.test.position.isUnknown then Node.positionOfAll a.trees else a.test.position := rfl
  have hsequence : a.sequence.position =
      if a.tree.position.isUnknown then Node.positionOfAll a.trees else a.tree.position := rfl
  rw [hsequence]
  by_cases htest : a.test.position.isUnknown
  · rw [htree, if_pos htest, ite_self]
  · rw [htree, if_neg htest, if_neg htest]

theorem exists_of_forall : ∀ {cs : List Node}, (∀ c ∈ cs, ∃ a : Alternative, c = a.tree) →
    ∃ as : List Alternative, cs = as.map tree
  | [], _ => ⟨[], rfl⟩
  | c :: cs, h => by
    obtain ⟨a, ha⟩ := h c List.mem_cons_self
    obtain ⟨as, has⟩ := exists_of_forall fun d hd => h d (List.mem_cons_of_mem _ hd)
    exact ⟨a :: as, by rw [ha, has, List.map_cons]⟩

end Alternative

/-- Some clause is no non-empty list, or an `else` is not the last clause. -/
def MalformedClauses (cs : List Node) : Prop :=
  (∃ c ∈ cs, ∀ a : Alternative, c ≠ a.tree) ∨
    ∃ a : Alternative, a.tree ∈ cs.dropLast ∧ a.test.IsElse

/-- The first clause is at fault, or the clauses after it are. -/
theorem MalformedClauses.cases {c : Node} {cs : List Node} (h : MalformedClauses (c :: cs)) :
    (∀ a : Alternative, c ≠ a.tree) ∨
      (∃ a : Alternative, c = a.tree ∧ a.test.IsElse ∧ cs ≠ []) ∨ MalformedClauses cs := by
  rcases h with ⟨d, hd, hshape⟩ | ⟨a, ha, helse⟩
  · rcases List.mem_cons.mp hd with rfl | hd
    · exact Or.inl hshape
    · exact Or.inr (Or.inr (Or.inl ⟨d, hd, hshape⟩))
  · cases cs with
    | nil => simp at ha
    | cons d ds =>
      rw [List.dropLast_cons_cons] at ha
      rcases List.mem_cons.mp ha with hc | ha
      · exact Or.inr (Or.inl ⟨a, hc.symm, helse, by simp⟩)
      · exact Or.inr (Or.inr (Or.inr ⟨a, ha, helse⟩))

/-- Clauses that are not malformed are tests with trees, none but the last an `else`. -/
theorem exists_alternatives {cs : List Node} (h : ¬ MalformedClauses cs) :
    ∃ as : List Alternative, cs = as.map Alternative.tree ∧
      ∀ a ∈ as.dropLast, ¬ a.test.IsElse := by
  have hshape : ∀ c ∈ cs, ∃ a : Alternative, c = a.tree := by
    intro c hc
    by_contra hnone
    exact h (Or.inl ⟨c, hc, fun a ha => hnone ⟨a, ha⟩⟩)
  obtain ⟨as, rfl⟩ := Alternative.exists_of_forall hshape
  refine ⟨as, rfl, fun a ha helse => h (Or.inr ⟨a, ?_, helse⟩)⟩
  rw [← List.map_dropLast]
  exact List.mem_map_of_mem ha

namespace Machine

open Outcome (Same)

variable {M : Machine σ} {scope : Scope} {s : Store σ} {head : Token}

/-! ### What the clauses are replaced by -/

section Clauses

variable {otherwise others : Node} {cs : List Node} {a : Alternative}

theorem nested_else (hothers : nested otherwise cs = .ok others) (h : a.test.IsElse) :
    nested otherwise (a.tree :: cs) =
      if cs.isEmpty then .ok a.sequence
      else .error (.malformed a.tree.position ["else is not the last cond clause"]) := by
  rw [nested, hothers]
  simp only [Alternative.tree, Node.isElse_iff.mpr h, if_true]
  rfl

theorem nested_test (hothers : nested otherwise cs = .ok others) (h : ¬ a.test.IsElse) :
    nested otherwise (a.tree :: cs) = .ok (a.choice others) := by
  rw [nested, hothers]
  simp only [Alternative.tree, Node.isElse_iff, h, if_false]
  rfl

/-- The clauses are gone through from the last one on, so one that is at fault wins over all that
are before it. -/
theorem nested_malformed (otherwise : Node) : ∀ {cs : List Node}, MalformedClauses cs →
    ∃ fault, nested otherwise cs = .error (.ofFault fault) ∧ fault.kind = .malformed
  | [], h => by simp [MalformedClauses] at h
  | c :: cs, h => by
    cases hrest : nested otherwise cs with
    | error n =>
      -- a fault of the clauses after this one is handed on
      obtain ⟨d, -, message, rfl⟩ := nested_cases.2 hrest
      exact ⟨_, by rw [nested, hrest]; rfl, rfl⟩
    | ok others =>
      rcases h.cases with hshape | ⟨a, rfl, helse, hcs⟩ | hbad
      · refine ⟨.placed .malformed c.position ["cond clause must be a non-empty list"], ?_, rfl⟩
        rw [nested, hrest]
        dsimp only
        split
        · rename_i test trees
          exact absurd rfl (hshape ⟨test, trees⟩)
        · rfl
      · rw [nested_else hrest helse, if_neg (by simpa using hcs)]
        exact ⟨_, rfl, rfl⟩
      · obtain ⟨fault, hfault, -⟩ := nested_malformed otherwise hbad
        rw [hfault] at hrest
        cases hrest

end Clauses

/-! ### The first match -/

/-- Evaluates the trees of a clause as arguments, up to the first failure, and gives the value of
the last one. -/
def inSequence (self : Recur σ) (scope : Scope) (a : Alternative) : Action σ Value :=
  withArguments self scope a.trees fun vs =>
    pure ((vs.getLast?.getD .nil).orNil.located a.tree.position)

/-- Evaluates the tests in order up to the first that holds, and then the trees of its clause. The
fault of a test ends the search. -/
def firstMatch (self : Recur σ) (scope : Scope) : List Alternative → Action σ Value
  | [] => pure .nil
  | a :: as =>
    if a.test.IsElse then inSequence self scope a
    else do
      match ← self.eval scope a.test with
      | .error f => return .error f
      | v => if v.isTruthy then inSequence self scope a else firstMatch self scope as

theorem same_inSequence (hs : s.Equipped) (a : Alternative) :
    Same (M.unbounded.eval scope a.sequence s) (inSequence M.unbounded scope a s) := by
  have hhead := headValue_ofFunction (M := M) scope Store.doRef a.tree.position s
  have hcalled : Same (M.unbounded.eval scope a.sequence s)
      (withArguments M.unbounded scope a.trees (fun args => do
        let v ← M.unbounded.call Store.doRef args
        return v.located a.sequence.position) s) := unbounded_called hhead a.trees
  rw [a.position_sequence] at hcalled
  refine hcalled.trans (Action.same_bind (.refl _) fun x t hx => ?_)
  cases x with
  | error f => exact .refl _
  | ok vs =>
    obtain ⟨name, hdo⟩ := Store.builtin?_eq_some.mp (hs.grows (grows_arguments hx)).sequence
    have hcall : M.call M.unbounded Store.doRef vs t = .done (vs.getLast?.getD .nil).orNil t :=
      call_builtin M _ rfl hdo (Builtin.apply_do _ vs)
    have hsame := (M.unbounded_call Store.doRef vs t).trans (.of_eq hcall)
    exact .of_eq (Action.bind_done (Outcome.same_done_iff.mp hsame))

/-- One clause, before clauses of which it is known what they come to. -/
theorem same_choice (hs : s.Equipped) (a : Alternative) {others : Node} {next : Action σ Value}
    (hnext : ∀ t : Store σ, t.Equipped → Same (M.unbounded.eval scope others t) (next t)) :
    Same (M.unbounded.eval scope (a.choice others) s)
      ((do
        match ← M.unbounded.eval scope a.test with
        | .error f => return Value.error f
        | v => if v.isTruthy then inSequence M.unbounded scope a else next) s) := by
  obtain ⟨x, hx, hexp⟩ := hs.conditional
  have hmeans := means_ofValue (M := M) hx hexp scope a.tree.position
  refine (hmeans.conditional a.test a.sequence others).trans ?_
  refine Action.same_bind (.refl _) fun v t hv => ?_
  have ht : t.Equipped := hs.grows (grows_eval hv)
  have hbranch : Same
      (M.unbounded.eval scope (if v.isTruthy then a.sequence else others) t)
      ((if v.isTruthy then inSequence M.unbounded scope a else next) t) := by
    by_cases htrue : v.isTruthy
    · rw [if_pos htrue, if_pos htrue]
      exact same_inSequence ht a
    · rw [if_neg htrue, if_neg htrue]
      exact hnext t ht
  cases v with
  | error f => exact .refl _
  | _ => exact hbranch

/-- All clauses: what they are replaced by comes to the first match. -/
theorem same_firstMatch (M : Machine σ) (scope : Scope) (p : Position) : ∀ as : List Alternative,
    (∀ a ∈ as.dropLast, ¬ a.test.IsElse) →
    ∃ n, nested (.ofValue .nil p) (as.map Alternative.tree) = .ok n ∧
      ∀ s : Store σ, s.Equipped →
        Same (M.unbounded.eval scope n s) (firstMatch M.unbounded scope as s)
  | [], _ => by
    refine ⟨.ofValue .nil p, rfl, fun s hs => .of_eq ?_⟩
    exact unbounded_literal hs.identity (by simp) (by simp) rfl
  | a :: as, hlast => by
    have htail : ∀ b ∈ as.dropLast, ¬ b.test.IsElse := by
      intro b hb
      cases as with
      | nil => simp at hb
      | cons c cs => exact hlast b (List.mem_cons_of_mem a hb)
    obtain ⟨others, hothers, hsame⟩ := same_firstMatch M scope p as htail
    by_cases helse : a.test.IsElse
    -- only the last clause may be an `else`, so nothing comes after it
    · have hnil : as = [] := by
        cases as with
        | nil => rfl
        | cons c cs => exact absurd helse (hlast a List.mem_cons_self)
      subst hnil
      refine ⟨a.sequence, nested_else hothers helse, fun s hs => ?_⟩
      rw [firstMatch, if_pos helse]
      exact same_inSequence hs a
    · refine ⟨a.choice others, nested_test hothers helse, fun s hs => ?_⟩
      rw [firstMatch, if_neg helse]
      exact same_choice hs a hsame

/-- **`cond` takes the first clause whose test holds**, in every scope and whatever the module binds
other names to. Clauses that are malformed are refused before anything is evaluated. -/
theorem cond_is_first_match (M : Machine σ) (scope : Scope) (s : Store σ) (hs : s.Equipped)
    (head : Token) (hcond : M.Means scope s (.special .cond) head) (cs : List Node) :
    (MalformedClauses cs → ∃ fault,
      M.unbounded.eval scope (.form (.leaf head :: cs)) s = .done (.error fault) s ∧
        fault.kind = .malformed) ∧
    (¬ MalformedClauses cs → ∃ as : List Alternative, cs = as.map Alternative.tree ∧
      Same (M.unbounded.eval scope (.form (.leaf head :: cs)) s)
        (firstMatch M.unbounded scope as s)) := by
  have hexpand (x : Transformer) (hx : x.expander = .special .cond) :
      expand M M.unbounded x cs scope s = .done (conditionals cs) s := by
    simp only [expand, hx, expandCond_eq]
    rfl
  constructor
  · intro hbad
    obtain ⟨fault, hclauses, hkind⟩ := nested_malformed (.ofValue .nil (Node.positionOfAll cs)) hbad
    have hreport : conditionals cs = .ofFault fault := by rw [conditionals, hclauses]
    refine ⟨fault, hcond.reported fault fun x hx => ?_, hkind⟩
    rw [hexpand x hx, hreport]
  · intro hgood
    obtain ⟨as, rfl, hlast⟩ := exists_alternatives hgood
    obtain ⟨n, hn, hsame⟩ :=
      same_firstMatch M scope (Node.positionOfAll (as.map Alternative.tree)) as hlast
    have hreplaced : conditionals (as.map Alternative.tree) = n := by rw [conditionals, hn]
    refine ⟨as, rfl, ?_⟩
    calc
      Same _ (M.unbounded.eval scope n s) :=
        hcond.replaced fun x hx => by rw [hexpand x hx, hreplaced]
      Same _ (firstMatch M.unbounded scope as s) := hsame s hs

end Machine

/-- `(cond (false :a) (else :b))` is `:b`, also where `if` and `do` are bound to `nil`. -/
theorem Session.cond_is_first_match_of_two :
    let M := (start .default .none ()).machine
    let s := ((Store.withGlobals "user" ()).bind "if" .nil).bind "do" .nil
    let word (text : Text) (column : Nat) : Token :=
      ⟨.identifier, ⟨"user", 1, column⟩, text, .undefined text⟩
    let keyword (text : Text) (column : Nat) : Node :=
      .leaf ⟨.keyword, ⟨"user", 1, column⟩, text, .keyword text⟩
    let never : Node := .leaf ⟨.literal, ⟨"user", 1, 8⟩, "false", .bool false⟩
    M.unbounded.eval [] (.form [.leaf (word "cond" 2), .form [never, keyword ":a" 14],
      .form [.leaf (word "else" 19), keyword ":b" 24]]) s = .done (.keyword ":b") s := by
  intro M s word keyword never
  let as : List Alternative :=
    [⟨never, [keyword ":a" 14]⟩, ⟨.leaf (word "else" 19), [keyword ":b" 24]⟩]
  have hext := ((Store.withGlobals "user" ()).extends_bind "if" .nil).trans
    (Store.extends_bind _ "do" .nil)
  have hs : s.Equipped := (Store.equipped_withGlobals "user" ()).grows hext.grows
  have hmeans : M.Means [] s (.special .cond) (word "cond" 2) := by
    have hname : M.Heads [] "cond" (word "cond" 2) :=
      Machine.heads_of_identifier (by decide) (by decide) rfl rfl rfl
    refine hname.means (hext.grows.expander? (hext.others _ (by decide)) ?_)
    exact (Store.standard_withGlobals "user" ()).specials .cond
  have hgood : ¬ MalformedClauses (as.map Alternative.tree) := by
    rintro (⟨c, hc, hshape⟩ | ⟨a, ha, helse⟩)
    · obtain ⟨a, -, rfl⟩ := List.mem_map.mp hc
      exact hshape a rfl
    · have hfirst : a.tree = Alternative.tree ⟨never, [keyword ":a" 14]⟩ := by simpa [as] using ha
      rw [Alternative.tree_inj hfirst] at helse
      exact absurd helse (by decide)
  obtain ⟨bs, hbs, hsame⟩ := (Machine.cond_is_first_match M [] s hs _ hmeans _).2 hgood
  obtain rfl : as = bs := (List.map_inj_right fun _ _ => Alternative.tree_inj).mp hbs
  have htest : M.unbounded.eval [] never s = .done (.bool false) s :=
    Machine.unbounded_literal hs.identity (by simp) (by simp) rfl
  have hmatch : Machine.firstMatch M.unbounded [] as s = .done (.keyword ":b") s := by
    rw [Machine.firstMatch, if_neg (by decide), Action.bind_done htest]
    rfl
  exact Outcome.same_done_iff.mp (hsame.trans (.of_eq hmatch))

end LittleLisp
