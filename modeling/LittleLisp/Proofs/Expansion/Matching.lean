/-
# Matching agrees with its meaning

A pattern that compiles matches exactly the trees that it should, and the tables then hold
the tree of matches of each of its variables. The proof goes over the pattern as it is
written, item by item. It needs that no variable occurs twice and that a list has at most
one ellipsis, which compiling checks, and that no name contains a `#`.

Key definitions: `Reference.Declares`, `Reference.Counted`, `Reference.Finds`.
Key theorems: `Reference.matchedItems_unique`, `Reference.unifyItems_eq_none`,
`Reference.unifyItems_eq_some`, `Reference.hasDepth_of_declared`.
-/
import LittleLisp.Proofs.Expansion.Table

namespace LittleLisp

namespace Reference

open Matches (key)

variable {L : Legend} {literals : List Text} {depth : Nat} {whole : List Node}
  {bs bs' : Bindings Nat}

/-! ### What compiling checks -/

section Compiling

/-- A leaf compiles to what it stands for; only a variable is declared, and only once. -/
theorem compile_leaf {t : Token} {p : Pattern}
    (h : Pattern.compile L literals depth (.leaf t) bs = .ok (p, bs')) :
    (t.type ≠ .identifier ∧ p = .constant t ∧ bs' = bs) ∨
    (t.type = .identifier ∧ t.text = underscore ∧ p = .wildcard ∧ bs' = bs) ∨
    (t.type = .identifier ∧ t.text ≠ underscore ∧ t.text ∈ literals ∧ p = .literal t.text ∧
      bs' = bs) ∨
    (t.type = .identifier ∧ IsVariable literals t.text ∧ bs.find? t.text = none ∧
      p = .variable t.text depth ∧ bs' = bs.insert t.text depth) := by
  unfold Pattern.compile at h
  split_ifs at h with hid hunder hlit hdup
  · cases h
    exact Or.inl ⟨hid, rfl, rfl⟩
  · cases h
    exact Or.inr (Or.inl ⟨not_not.mp hid, hunder, rfl, rfl⟩)
  · cases h
    exact Or.inr (Or.inr (Or.inl ⟨not_not.mp hid, hunder, hlit, rfl, rfl⟩))
  · simp [Compiled.fail] at h
  · cases h
    refine Or.inr (Or.inr (Or.inr ⟨not_not.mp hid, ⟨hunder, hlit⟩, ?_, rfl, rfl⟩))
    simpa using hdup

theorem compile_form {ns : List Node} {p : Pattern}
    (h : Pattern.compile L literals depth (.form ns) bs = .ok (p, bs')) :
    ∃ ps, Pattern.compileItems L literals depth ns false ns bs = .ok (ps, bs') ∧ p = .list ps := by
  unfold Pattern.compile at h
  obtain ⟨⟨ps, cs⟩, hps, h⟩ := except_bind_eq_ok.mp h
  cases h
  exact ⟨ps, hps, rfl⟩

/-- An item with an ellipsis is compiled one ellipsis deeper, and it is the only one. -/
theorem compileItems_repeated {repeats : Bool} {n m : Node} {ns : List Node} {ps : List Pattern}
    (hm : m.isEllipsis = true)
    (h : Pattern.compileItems L literals depth whole repeats (n :: m :: ns) bs = .ok (ps, bs')) :
    repeats = false ∧ ∃ p qs cs, Pattern.compile L literals (depth + 1) n bs = .ok (p, cs) ∧
      Pattern.compileItems L literals depth whole true ns cs = .ok (qs, bs') ∧
        ps = .repeated p :: qs := by
  unfold Pattern.compileItems at h
  rw [if_pos hm] at h
  split_ifs at h with hrep
  · simp [Compiled.fail] at h
  · obtain ⟨⟨p, cs⟩, hp, h⟩ := except_bind_eq_ok.mp h
    obtain ⟨⟨qs, ds⟩, hqs, h⟩ := except_bind_eq_ok.mp h
    cases h
    exact ⟨by simpa using hrep, p, qs, cs, hp, hqs, rfl⟩

theorem compileItems_plain {repeats : Bool} {n : Node} {ns : List Node} {ps : List Pattern}
    (hns : beginsWithEllipsis ns = false)
    (h : Pattern.compileItems L literals depth whole repeats (n :: ns) bs = .ok (ps, bs')) :
    ∃ p qs cs, Pattern.compile L literals depth n bs = .ok (p, cs) ∧
      Pattern.compileItems L literals depth whole repeats ns cs = .ok (qs, bs') ∧ ps = p :: qs := by
  cases ns with
  | nil =>
    unfold Pattern.compileItems at h
    obtain ⟨⟨p, cs⟩, hp, h⟩ := except_bind_eq_ok.mp h
    cases h
    exact ⟨p, [], bs', hp, by simp [Pattern.compileItems], rfl⟩
  | cons m ns =>
    have hm : ¬ m.isEllipsis = true := by simpa [beginsWithEllipsis] using hns
    unfold Pattern.compileItems at h
    rw [if_neg hm] at h
    obtain ⟨⟨p, cs⟩, hp, h⟩ := except_bind_eq_ok.mp h
    obtain ⟨⟨qs, ds⟩, hqs, h⟩ := except_bind_eq_ok.mp h
    cases h
    exact ⟨p, qs, cs, hp, hqs, rfl⟩

theorem compileItems_nil {repeats : Bool} {ps : List Pattern}
    (h : Pattern.compileItems L literals depth whole repeats [] bs = .ok (ps, bs')) :
    ps = [] ∧ bs' = bs := by
  simp only [Pattern.compileItems, Except.ok.injEq, Prod.mk.injEq] at h
  exact ⟨h.1.symm, h.2.symm⟩

/-- What is compiled on its own has no ellipsis of its own. -/
theorem compile_ne_repeated {n : Node} {p : Pattern}
    (h : Pattern.compile L literals depth n bs = .ok (p, bs')) (q : Pattern) :
    p ≠ .repeated q := by
  cases n with
  | absent => simp [Pattern.compile, Compiled.fail] at h
  | leaf t =>
    rcases compile_leaf h with ⟨_, rfl, _⟩ | ⟨_, _, rfl, _⟩ | ⟨_, _, _, rfl, _⟩ | ⟨_, _, _, rfl, _⟩
      <;> simp
  | form ns =>
    obtain ⟨ps, -, rfl⟩ := compile_form h
    simp

end Compiling

/-! ### Variables are declared once -/

/-- Variables that are all different and were not declared before, are declared now, and nothing
else is. -/
structure Declares (xs : List Text) (bs bs' : Bindings Nat) : Prop where
  nodup : xs.Nodup
  fresh : ∀ x ∈ xs, bs.find? x = none
  bound : ∀ x ∈ xs, bs'.find? x ≠ none
  other : ∀ x, x ∉ xs → bs'.find? x = bs.find? x

theorem Declares.nil (bs : Bindings Nat) : Declares [] bs bs :=
  ⟨List.nodup_nil, by simp, by simp, fun _ _ => rfl⟩

theorem Declares.disjoint {xs ys : List Text} {cs : Bindings Nat} (h : Declares xs bs cs)
    (h' : Declares ys cs bs') {x : Text} (hx : x ∈ xs) : x ∉ ys :=
  fun hy => h.bound x hx (h'.fresh x hy)

theorem Declares.append {xs ys : List Text} {cs : Bindings Nat} (h : Declares xs bs cs)
    (h' : Declares ys cs bs') : Declares (xs ++ ys) bs bs' where
  nodup := by
    refine List.nodup_append.mpr ⟨h.nodup, h'.nodup, fun x hx y hy hxy => ?_⟩
    exact h.disjoint h' hx (hxy ▸ hy)
  fresh x hx := by
    by_cases hxs : x ∈ xs
    · exact h.fresh x hxs
    · rw [← h.other x hxs]
      exact h'.fresh x ((List.mem_append.mp hx).resolve_left hxs)
  bound x hx := by
    rcases List.mem_append.mp hx with hx | hx
    · rw [h'.other x (h.disjoint h' hx)]
      exact h.bound x hx
    · exact h'.bound x hx
  other x hx := by
    simp only [List.mem_append, not_or] at hx
    rw [h'.other x hx.2, h.other x hx.1]

theorem vars_leaf_variable {t : Token} (ht : t.type = .identifier)
    (hx : IsVariable literals t.text) : vars literals (.leaf t) = [t.text] := by
  simp [vars, names, ht, hx]

theorem vars_leaf_other {t : Token} (h : t.type = .identifier → ¬ IsVariable literals t.text) :
    vars literals (.leaf t) = [] := by
  by_cases ht : t.type = .identifier
  · simp [vars, names, ht, h ht]
  · simp [vars, names, ht]

theorem declares_leaf {t : Token} {p : Pattern}
    (h : Pattern.compile L literals depth (.leaf t) bs = .ok (p, bs')) :
    Declares (vars literals (.leaf t)) bs bs' := by
  rcases compile_leaf h with ⟨ht, -, rfl⟩ | ⟨-, hu, -, rfl⟩ | ⟨-, -, hl, -, rfl⟩ |
    ⟨ht, hx, hnew, -, rfl⟩
  · rw [vars_leaf_other fun h => absurd h ht]
    exact .nil _
  · rw [vars_leaf_other fun _ h => h.1 hu]
    exact .nil _
  · rw [vars_leaf_other fun _ h => h.2 hl]
    exact .nil _
  · rw [vars_leaf_variable ht hx]
    refine ⟨by simp, by simpa using hnew, by simp, fun x hx => ?_⟩
    exact Bindings.find?_insert_of_ne (by simpa using hx) _ _

variable (L literals) in
theorem declares_all :
    (∀ (n : Node) (depth : Nat) (bs bs' : Bindings Nat) (p : Pattern),
      Pattern.compile L literals depth n bs = .ok (p, bs') → Declares (vars literals n) bs bs') ∧
    ∀ (ns : List Node) (depth : Nat) (whole : List Node) (repeats : Bool) (bs bs' : Bindings Nat)
      (ps : List Pattern),
      Pattern.compileItems L literals depth whole repeats ns bs = .ok (ps, bs') →
        Declares (varsOfItems literals ns) bs bs' := by
  refine itemInduction ?absent ?leaf ?form ?nil ?repeated ?plain
  case absent =>
    intro depth bs bs' p h
    simp [Pattern.compile, Compiled.fail] at h
  case leaf => exact fun t depth bs bs' p h => declares_leaf h
  case form =>
    intro ns ih depth bs bs' p h
    obtain ⟨ps, hps, -⟩ := compile_form h
    rw [vars_form]
    exact ih _ _ _ _ _ _ hps
  case nil =>
    intro depth whole repeats bs bs' ps h
    obtain ⟨-, rfl⟩ := compileItems_nil h
    exact .nil _
  case repeated =>
    intro n m ns hm ihn ihns depth whole repeats bs bs' ps h
    obtain ⟨-, p, qs, cs, hp, hqs, -⟩ := compileItems_repeated hm h
    rw [varsOfItems_repeated hm]
    exact (ihn _ _ _ _ hp).append (ihns _ _ _ _ _ _ hqs)
  case plain =>
    intro n ns hns ihn ihns depth whole repeats bs bs' ps h
    obtain ⟨p, qs, cs, hp, hqs, -⟩ := compileItems_plain hns h
    rw [varsOfItems_plain hns]
    exact (ihn _ _ _ _ hp).append (ihns _ _ _ _ _ _ hqs)

theorem declares_compile {n : Node} {p : Pattern}
    (h : Pattern.compile L literals depth n bs = .ok (p, bs')) :
    Declares (vars literals n) bs bs' := (declares_all L literals).1 n _ _ _ _ h

theorem declares_compileItems {repeats : Bool} {ns : List Node} {ps : List Pattern}
    (h : Pattern.compileItems L literals depth whole repeats ns bs = .ok (ps, bs')) :
    Declares (varsOfItems literals ns) bs bs' := (declares_all L literals).2 ns _ _ _ _ _ _ h

/-! ### Which variables a match assigns -/

section Assigned

theorem matched_variable {t : Token} (ht : t.type = .identifier)
    (hx : IsVariable literals t.text) {n : Node} {a : Assignment} :
    Matched literals (.leaf t) n a ↔ a = .single t.text n := by
  simp [Matched, ht, hx.1, hx.2]

theorem matched_other {t : Token} (h : t.type = .identifier → ¬ IsVariable literals t.text)
    {n : Node} {a : Assignment} (hm : Matched literals (.leaf t) n a) : a = .empty := by
  unfold Matched at hm
  split_ifs at hm with ht hu hl
  · exact hm.2
  · exact hm
  · exact hm.2
  · exact absurd ⟨hu, hl⟩ (h (not_not.mp ht))

theorem Assignment.union_eq_none {a b : Assignment} {x : Text} :
    a.union b x = none ↔ a x = none ∧ b x = none := by
  simp [Assignment.union]

theorem Assignment.union_left {a : Assignment} {x : Text} {t : MatchTree} (h : a x = some t)
    (b : Assignment) : a.union b x = some t := by
  simp [Assignment.union, h]

theorem Assignment.union_right {a : Assignment} {x : Text} (h : a x = none) (b : Assignment) :
    a.union b x = b x := by
  simp [Assignment.union, h]

theorem Assignment.gather_eq_none {xs : List Text} {as : List Assignment} {x : Text} :
    Assignment.gather xs as x = none ↔ x ∉ xs := by
  simp [Assignment.gather]

variable (literals) in
/-- A match assigns the variables of the pattern and no others. -/
theorem assigned_all :
    (∀ (p n : Node) (a : Assignment), Matched literals p n a →
      ∀ x, a x = none ↔ x ∉ vars literals p) ∧
    ∀ (ps ns : List Node) (a : Assignment), MatchedItems literals ps ns a →
      ∀ x, a x = none ↔ x ∉ varsOfItems literals ps := by
  refine itemInduction ?absent ?leaf ?form ?nil ?repeated ?plain
  case absent => exact fun n a h => absurd h (by simp [Matched])
  case leaf =>
    intro t n a h x
    by_cases hx : t.type = .identifier ∧ IsVariable literals t.text
    · rw [matched_variable hx.1 hx.2] at h
      subst h
      rw [vars_leaf_variable hx.1 hx.2]
      simp [Assignment.single]
    · have hother : t.type = .identifier → ¬ IsVariable literals t.text := not_and.mp hx
      rw [matched_other hother h, vars_leaf_other hother]
      simp [Assignment.empty]
  case form =>
    intro ps ih n a h x
    obtain ⟨ns, -, hns⟩ : ∃ ns, n = .form ns ∧ MatchedItems literals ps ns a := by
      simpa [Matched] using h
    rw [vars_form]
    exact ih ns a hns x
  case nil =>
    intro ns a h x
    obtain ⟨-, rfl⟩ : ns = [] ∧ a = .empty := by simpa [MatchedItems] using h
    simp [Assignment.empty, varsOfItems, namesOfItems]
  case repeated =>
    intro p q ps hq _ ihps ns a h x
    obtain ⟨repetitions, others, as, b, -, -, hb, rfl⟩ := (matchedItems_repeated hq).mp h
    rw [Assignment.union_eq_none, Assignment.gather_eq_none, ihps others b hb x,
      varsOfItems_repeated hq, List.mem_append, not_or]
  case plain =>
    intro p ps hps ihp ihps ns a h x
    obtain ⟨n, others, b, c, -, hb, hc, rfl⟩ := (matchedItems_plain hps).mp h
    rw [Assignment.union_eq_none, ihp n b hb x, ihps others c hc x, varsOfItems_plain hps,
      List.mem_append, not_or]

theorem assigned {p n : Node} {a : Assignment} (h : Matched literals p n a) (x : Text) :
    a x = none ↔ x ∉ vars literals p := (assigned_all literals).1 p n a h x

theorem assignedItems {ps ns : List Node} {a : Assignment} (h : MatchedItems literals ps ns a)
    (x : Text) : a x = none ↔ x ∉ varsOfItems literals ps := (assigned_all literals).2 ps ns a h x

/-- An assigned variable is one of the pattern. -/
theorem mem_vars_of_assigned {p n : Node} {a : Assignment} (h : Matched literals p n a) {x : Text}
    {t : MatchTree} (ht : a x = some t) : x ∈ vars literals p := by
  by_contra hx
  rw [(assigned h x).mpr hx] at ht
  simp at ht

theorem mem_varsOfItems_of_assigned {ps ns : List Node} {a : Assignment}
    (h : MatchedItems literals ps ns a) {x : Text} {t : MatchTree} (ht : a x = some t) :
    x ∈ varsOfItems literals ps := by
  by_contra hx
  rw [(assignedItems h x).mpr hx] at ht
  simp at ht

theorem forall₂_mem_right {α β : Type} {R : α → β → Prop} {as : List α} {bs : List β}
    (h : List.Forall₂ R as bs) {b : β} (hb : b ∈ bs) : ∃ a ∈ as, R a b := by
  induction h with
  | nil => simp at hb
  | cons hab _ ih =>
    rcases List.mem_cons.mp hb with rfl | hb
    · exact ⟨_, List.mem_cons_self, hab⟩
    · obtain ⟨a, ha, hab⟩ := ih hb
      exact ⟨a, List.mem_cons_of_mem _ ha, hab⟩

/-- Each repetition of an item has its entry in the tree of matches of a variable. -/
theorem gather_eq_some {p : Node} {ns : List Node} {as : List Assignment}
    (h : List.Forall₂ (Matched literals p) ns as) {x : Text} {t : MatchTree}
    (ht : Assignment.gather (vars literals p) as x = some t) :
    x ∈ vars literals p ∧ ∃ ts, t = .many ts ∧ ts.length = ns.length ∧
      ∀ (i : Nat) (u : MatchTree), ts[i]? = some u →
        ∃ a : Assignment, as[i]? = some a ∧ a x = some u := by
  unfold Assignment.gather at ht
  split_ifs at ht with hx
  refine ⟨hx, _, (Option.some.inj ht).symm, ?_⟩
  clear ht
  induction h with
  | nil => simp
  | @cons n a ns as hna _ ih =>
    cases ha : a x with
    | none => exact absurd hx ((assigned hna x).mp ha)
    | some v =>
      simp only [List.filterMap_cons, ha, List.length_cons]
      refine ⟨by rw [ih.1], fun i u hu => ?_⟩
      cases i with
      | zero => exact ⟨a, rfl, by simpa [ha] using hu⟩
      | succ i => exact ih.2 i u (by simpa using hu)

end Assigned

/-! ### How deep the trees of matches are -/

/-- The trees of matches of a repeated item are one deeper than those of the item. -/
theorem hasDepth_gather {n : Node} {nodes : List Node} {as : List Assignment} {x : Text} {k : Nat}
    (has : List.Forall₂ (Matched literals n) nodes as)
    (hdeep : ∀ node a, Matched literals n node a → ∃ t, a x = some t ∧ HasDepth k t)
    (hx : x ∈ vars literals n) :
    ∃ t, Assignment.gather (vars literals n) as x = some t ∧ HasDepth (k + 1) t := by
  cases hg : Assignment.gather (vars literals n) as x with
  | none => exact absurd hx (Assignment.gather_eq_none.mp hg)
  | some t =>
    obtain ⟨-, ts, rfl, -, hts⟩ := gather_eq_some has hg
    refine ⟨_, rfl, .many fun u hu => ?_⟩
    obtain ⟨i, hi⟩ := List.getElem?_of_mem hu
    obtain ⟨c, hc, hcx⟩ := hts i u hi
    obtain ⟨node, -, hnode⟩ := forall₂_mem_right has (List.mem_of_getElem? hc)
    obtain ⟨v, hv, hvdeep⟩ := hdeep node c hnode
    rwa [Option.some.inj (hv.symm.trans hcx)] at hvdeep

variable (L literals) in
theorem hasDepth_all :
    (∀ (n : Node) (depth : Nat) (bs bs' : Bindings Nat) (p : Pattern),
      Pattern.compile L literals depth n bs = .ok (p, bs') → ∀ x ∈ vars literals n,
        ∃ k, bs'.find? x = some (k + depth) ∧
          ∀ node a, Matched literals n node a → ∃ t, a x = some t ∧ HasDepth k t) ∧
    ∀ (ns : List Node) (depth : Nat) (whole : List Node) (repeats : Bool) (bs bs' : Bindings Nat)
      (ps : List Pattern),
      Pattern.compileItems L literals depth whole repeats ns bs = .ok (ps, bs') →
        ∀ x ∈ varsOfItems literals ns, ∃ k, bs'.find? x = some (k + depth) ∧
          ∀ nodes a, MatchedItems literals ns nodes a → ∃ t, a x = some t ∧ HasDepth k t := by
  refine itemInduction ?absent ?leaf ?form ?nil ?repeated ?plain
  case absent =>
    intro depth bs bs' p h
    simp [Pattern.compile, Compiled.fail] at h
  case leaf =>
    intro t depth bs bs' p h x hx
    by_cases hvar : t.type = .identifier ∧ IsVariable literals t.text
    · rw [vars_leaf_variable hvar.1 hvar.2, List.mem_singleton] at hx
      subst hx
      refine ⟨0, ?_, fun node a ha => ?_⟩
      · rcases compile_leaf h with ⟨ht, -, -⟩ | ⟨-, hu, -, -⟩ | ⟨-, -, hl, -, -⟩ |
          ⟨-, -, -, -, rfl⟩
        · exact absurd hvar.1 ht
        · exact absurd hu hvar.2.1
        · exact absurd hl hvar.2.2
        · simp
      · rw [(matched_variable hvar.1 hvar.2).mp ha]
        exact ⟨.one node, by simp [Assignment.single], .one⟩
    · rw [vars_leaf_other (not_and.mp hvar)] at hx
      simp at hx
  case form =>
    intro ns ih depth bs bs' p h x hx
    obtain ⟨ps, hps, -⟩ := compile_form h
    rw [vars_form] at hx
    obtain ⟨k, hk, hdeep⟩ := ih _ _ _ _ _ _ hps x hx
    refine ⟨k, hk, fun node a ha => ?_⟩
    obtain ⟨nodes, -, ha⟩ : ∃ nodes, node = .form nodes ∧ MatchedItems literals ns nodes a := by
      simpa [Matched] using ha
    exact hdeep nodes a ha
  case nil =>
    intro depth whole repeats bs bs' ps h x hx
    simp [varsOfItems, namesOfItems] at hx
  case repeated =>
    intro n m ns hm ihn ihns depth whole repeats bs bs' ps h x hx
    obtain ⟨-, p, qs, cs, hp, hqs, -⟩ := compileItems_repeated hm h
    have hdecl := declares_compile hp
    have hdecls := declares_compileItems hqs
    rw [varsOfItems_repeated hm, List.mem_append] at hx
    by_cases hxn : x ∈ vars literals n
    · obtain ⟨k, hk, hdeep⟩ := ihn _ _ _ _ hp x hxn
      refine ⟨k + 1, ?_, fun nodes a ha => ?_⟩
      · rw [hdecls.other x (hdecl.disjoint hdecls hxn), hk]
        congr 1
        omega
      · obtain ⟨repetitions, others, as, b, -, has, -, rfl⟩ := (matchedItems_repeated hm).mp ha
        obtain ⟨t, ht, hdeep⟩ := hasDepth_gather has hdeep hxn
        exact ⟨t, Assignment.union_left ht b, hdeep⟩
    · obtain ⟨k, hk, hdeep⟩ := ihns _ _ _ _ _ _ hqs x (hx.resolve_left hxn)
      refine ⟨k, hk, fun nodes a ha => ?_⟩
      obtain ⟨repetitions, others, as, b, -, -, hb, rfl⟩ := (matchedItems_repeated hm).mp ha
      rw [Assignment.union_right (Assignment.gather_eq_none.mpr hxn)]
      exact hdeep others b hb
  case plain =>
    intro n ns hns ihn ihns depth whole repeats bs bs' ps h x hx
    obtain ⟨p, qs, cs, hp, hqs, -⟩ := compileItems_plain hns h
    have hdecl := declares_compile hp
    have hdecls := declares_compileItems hqs
    rw [varsOfItems_plain hns, List.mem_append] at hx
    by_cases hxn : x ∈ vars literals n
    · obtain ⟨k, hk, hdeep⟩ := ihn _ _ _ _ hp x hxn
      refine ⟨k, by rw [hdecls.other x (hdecl.disjoint hdecls hxn), hk], fun nodes a ha => ?_⟩
      obtain ⟨node, others, b, c, -, hb, -, rfl⟩ := (matchedItems_plain hns).mp ha
      obtain ⟨t, ht, hdeep⟩ := hdeep node b hb
      exact ⟨t, Assignment.union_left ht c, hdeep⟩
    · obtain ⟨k, hk, hdeep⟩ := ihns _ _ _ _ _ _ hqs x (hx.resolve_left hxn)
      refine ⟨k, hk, fun nodes a ha => ?_⟩
      obtain ⟨node, others, b, c, -, hb, hc, rfl⟩ := (matchedItems_plain hns).mp ha
      rw [Assignment.union_right ((assigned hb x).mpr hxn)]
      exact hdeep others c hc

/-! ### Counting repetitions -/

section Counting

variable {m m' m'' : Matches} {path : List Nat} {k : Nat} {xs ys : List Text}

/-- The tables record that the variables `xs` were repeated `k` times, and are otherwise the
same. -/
structure Counted (xs : List Text) (m m' : Matches) (path : List Nat) (k : Nat) : Prop where
  nodes : m'.nodes = m.nodes
  here : ∀ x ∈ xs, m'.counts.find? (key x path) = some k
  other : ∀ y q, Sharpless y → (y ∈ xs → q ≠ path) →
    m'.counts.find? (key y q) = m.counts.find? (key y q)

theorem Counted.nil (m : Matches) (path : List Nat) (k : Nat) : Counted [] m m path k :=
  ⟨rfl, by simp, fun _ _ _ _ => rfl⟩

theorem Counted.append (hxs : ∀ x ∈ xs, Sharpless x) (h : Counted xs m m' path k)
    (h' : Counted ys m' m'' path k) : Counted (xs ++ ys) m m'' path k where
  nodes := h'.nodes.trans h.nodes
  here x hx := by
    by_cases hy : x ∈ ys
    · exact h'.here x hy
    · have hx : x ∈ xs := (List.mem_append.mp hx).resolve_right hy
      rw [h'.other x path (hxs x hx) fun h => absurd h hy]
      exact h.here x hx
  other y q hy hq := by
    rw [h'.other y q hy fun h => hq (List.mem_append_right _ h),
      h.other y q hy fun h => hq (List.mem_append_left _ h)]

variable (L literals) in
theorem counted_all :
    (∀ (n : Node) (depth : Nat) (bs bs' : Bindings Nat) (p : Pattern),
      Pattern.compile L literals depth n bs = .ok (p, bs') →
        (∀ x ∈ vars literals n, Sharpless x) → ∀ (m : Matches) (path : List Nat) (k : Nat),
          Counted (vars literals n) m (m.count path k p) path k) ∧
    ∀ (ns : List Node) (depth : Nat) (whole : List Node) (repeats : Bool) (bs bs' : Bindings Nat)
      (ps : List Pattern),
      Pattern.compileItems L literals depth whole repeats ns bs = .ok (ps, bs') →
        (∀ x ∈ varsOfItems literals ns, Sharpless x) →
          ∀ (m : Matches) (path : List Nat) (k : Nat),
            Counted (varsOfItems literals ns) m (m.countItems path k ps) path k := by
  refine itemInduction ?absent ?leaf ?form ?nil ?repeated ?plain
  case absent =>
    intro depth bs bs' p h
    simp [Pattern.compile, Compiled.fail] at h
  case leaf =>
    intro t depth bs bs' p h hsharp m path k
    rcases compile_leaf h with ⟨ht, rfl, -⟩ | ⟨-, hu, rfl, -⟩ | ⟨-, -, hl, rfl, -⟩ |
      ⟨ht, hx, -, rfl, -⟩
    · rw [vars_leaf_other fun h => absurd h ht]
      exact .nil _ _ _
    · rw [vars_leaf_other fun _ h => h.1 hu]
      exact .nil _ _ _
    · rw [vars_leaf_other fun _ h => h.2 hl]
      exact .nil _ _ _
    · rw [vars_leaf_variable ht hx] at hsharp ⊢
      have hsharp : Sharpless t.text := hsharp _ (by simp)
      refine ⟨rfl, by simp [Matches.count], fun y q hy hq => ?_⟩
      refine Bindings.find?_insert_of_ne (fun hkey => ?_) _ _
      obtain ⟨hyt, hqp⟩ := key_inj hy hsharp hkey
      exact hq (by simp [hyt]) hqp
  case form =>
    intro ns ih depth bs bs' p h hsharp m path k
    obtain ⟨ps, hps, rfl⟩ := compile_form h
    rw [vars_form] at hsharp ⊢
    exact ih _ _ _ _ _ _ hps hsharp m path k
  case nil =>
    intro depth whole repeats bs bs' ps h _ m path k
    obtain ⟨rfl, -⟩ := compileItems_nil h
    exact .nil _ _ _
  case repeated =>
    intro n q ns hq ihn ihns depth whole repeats bs bs' ps h hsharp m path k
    obtain ⟨-, p, qs, cs, hp, hqs, rfl⟩ := compileItems_repeated hq h
    rw [varsOfItems_repeated hq, List.forall_mem_append] at hsharp
    rw [varsOfItems_repeated hq]
    exact (ihn _ _ _ _ hp hsharp.1 m path k).append hsharp.1
      (ihns _ _ _ _ _ _ hqs hsharp.2 _ path k)
  case plain =>
    intro n ns hns ihn ihns depth whole repeats bs bs' ps h hsharp m path k
    obtain ⟨p, qs, cs, hp, hqs, rfl⟩ := compileItems_plain hns h
    rw [varsOfItems_plain hns, List.forall_mem_append] at hsharp
    rw [varsOfItems_plain hns]
    exact (ihn _ _ _ _ hp hsharp.1 m path k).append hsharp.1
      (ihns _ _ _ _ _ _ hqs hsharp.2 _ path k)

theorem counted_compile {n : Node} {p : Pattern}
    (h : Pattern.compile L literals depth n bs = .ok (p, bs'))
    (hsharp : ∀ x ∈ vars literals n, Sharpless x) (m : Matches) (path : List Nat) (k : Nat) :
    Counted (vars literals n) m (m.count path k p) path k :=
  (counted_all L literals).1 n _ _ _ _ h hsharp m path k

/-- Counting changes nothing in the repetitions inside. -/
theorem Counted.frame (h : Counted xs m m' path k) : Frame m m' xs path := by
  intro y q hy hq
  refine ⟨by rw [h.nodes], h.other y q hy fun hx hqp => hq hx ?_⟩
  exact hqp ▸ List.prefix_refl _

end Counting

/-! ### What matches is a match -/

section Sound

/-- One step of matching gave an assignment that the tables now hold, and touched nothing else. -/
def Finds (R : Assignment → Prop) (xs : List Text) (m m' : Matches) (path : List Nat) : Prop :=
  ∃ a, R a ∧ (∀ x t, a x = some t → Stored m' x path t) ∧ Frame m m' xs path

theorem prefix_of_both {path q : List Nat} {i j : Nat} (hi : path ++ [i] <+: q)
    (hj : path ++ [j] <+: q) : i = j := by
  have h := List.prefix_of_prefix_length_le hi hj (by simp)
  rw [List.prefix_append_right_inj] at h
  simpa using h

/-- Matching the repetitions of an item one after the other. -/
theorem finds_each {u : Matches → List Nat → Node → Option Matches} {R : Node → Assignment → Prop}
    {xs : List Text} (hR : ∀ n a, R n a → ∀ x t, a x = some t → x ∈ xs ∧ Sharpless x)
    (hu : ∀ m path n m', u m path n = some m' → Finds (R n) xs m m' path) (path : List Nat) :
    ∀ (ns : List Node) (i : Nat) (m m' : Matches), Matches.unifyEach? u path i ns m = some m' →
      ∃ as, List.Forall₂ R ns as ∧
        (∀ (j : Nat) (a : Assignment), as[j]? = some a →
          ∀ x t, a x = some t → Stored m' x (path ++ [i + j]) t) ∧
        ∀ y q, Sharpless y → (y ∈ xs → ∀ j, i ≤ j → ¬ path ++ [j] <+: q) → SameAt m m' y q
  | [], i, m, m', h => by
    simp only [Matches.unifyEach?, Option.some.injEq] at h
    subst h
    exact ⟨[], .nil, by simp, fun _ _ _ _ => .refl _ _ _⟩
  | n :: ns, i, m, m', h => by
    unfold Matches.unifyEach? at h
    cases hstep : u m (path ++ [i]) n with
    | none => simp [hstep] at h
    | some m₁ =>
      simp only [hstep] at h
      obtain ⟨a, ha, hstored, hframe⟩ := hu m (path ++ [i]) n m₁ hstep
      obtain ⟨as, has, hstoreds, hsame⟩ := finds_each hR hu path ns (i + 1) m₁ m' h
      refine ⟨a :: as, .cons ha has, fun j b hb x t ht => ?_, fun y q hy hq => ?_⟩
      · cases j with
        | zero =>
          obtain rfl : a = b := by simpa using hb
          obtain ⟨hx, hsharp⟩ := hR n a ha x t ht
          refine (hstored x t ht).congr fun q hq => hsame x q hsharp fun _ l hl hlq => ?_
          -- The repetitions that follow have other numbers.
          have : i = l := prefix_of_both hq hlq
          omega
        | succ j =>
          have hb : as[j]? = some b := by simpa using hb
          have hst := hstoreds j b hb x t ht
          rwa [Nat.add_assoc, Nat.add_comm 1 j] at hst
      · refine (hframe y q hy fun hx => hq hx i (Nat.le_refl i)).trans (hsame y q hy fun hx l hl => ?_)
        exact hq hx l (by omega)

/-- An item with an ellipsis: its repetitions, and how many there were. -/
theorem finds_repeated {n : Node} {p : Pattern} {depth : Nat}
    (hp : Pattern.compile L literals depth n bs = .ok (p, bs'))
    (hsharp : ∀ x ∈ vars literals n, Sharpless x)
    (hu : ∀ m path node m', Matches.unify? p m path node = some m' →
      Finds (Matched literals n node) (vars literals n) m m' path)
    {path : List Nat} {nodes : List Node} {m m' : Matches}
    (h : Matches.unifyEach? (Matches.unify? p) path 0 nodes m = some m') :
    ∃ as, List.Forall₂ (Matched literals n) nodes as ∧
      (∀ x t, Assignment.gather (vars literals n) as x = some t →
        Stored (m'.count path nodes.length p) x path t) ∧
      Frame m (m'.count path nodes.length p) (vars literals n) path := by
  have hR : ∀ node a, Matched literals n node a → ∀ x t, a x = some t →
      x ∈ vars literals n ∧ Sharpless x := by
    intro node a ha x t ht
    have hx := mem_vars_of_assigned ha ht
    exact ⟨hx, hsharp x hx⟩
  obtain ⟨as, has, hstored, hsame⟩ := finds_each hR hu path nodes 0 m m' h
  have hcount := counted_compile hp hsharp m' path nodes.length
  refine ⟨as, has, fun x t ht => ?_, ?_⟩
  · obtain ⟨hx, ts, rfl, hlen, hts⟩ := gather_eq_some has ht
    refine .many (by rw [hcount.here x hx, hlen]) fun i u hi => ?_
    obtain ⟨a, ha, hax⟩ := hts i u hi
    have hst := hstored i a ha x u hax
    rw [Nat.zero_add] at hst
    refine hst.congr fun q hq => ⟨by rw [hcount.nodes], hcount.other x q (hsharp x hx) ?_⟩
    rintro - rfl
    have hle := hq.length_le
    simp only [List.length_append, List.length_singleton] at hle
    omega
  · refine Frame.trans (fun y q hy hq => ?_) hcount.frame
    refine hsame y q hy fun hx j _ hj => hq hx ((List.prefix_append _ _).trans hj)

/-- What two neighbouring parts of a list find. -/
theorem finds_union {xs ys : List Text} {m m₁ m' : Matches}
    {path : List Nat} {b c : Assignment}
    (hb : ∀ x t, b x = some t → x ∉ ys ∧ Sharpless x)
    (hbs : ∀ x t, b x = some t → Stored m₁ x path t) (hbf : Frame m m₁ xs path)
    (hcs : ∀ x t, c x = some t → Stored m' x path t) (hcf : Frame m₁ m' ys path) :
    (∀ x t, b.union c x = some t → Stored m' x path t) ∧ Frame m m' (xs ++ ys) path := by
  refine ⟨fun x t ht => ?_, ?_⟩
  · cases hbx : b x with
    | none =>
      rw [Assignment.union_right hbx] at ht
      exact hcs x t ht
    | some u =>
      rw [Assignment.union_left hbx, Option.some.injEq] at ht
      subst ht
      obtain ⟨hout, hsharp⟩ := hb x u hbx
      exact (hbs x u hbx).frame hcf hsharp fun hx => absurd hx hout
  · exact (hbf.mono (fun x hx => List.mem_append_left _ hx) (List.prefix_refl _)).trans
      (hcf.mono (fun x hx => List.mem_append_right _ hx) (List.prefix_refl _))

/-- A leaf: the variable that it is, if it is one. -/
theorem finds_leaf {t : Token} {p : Pattern}
    (h : Pattern.compile L literals depth (.leaf t) bs = .ok (p, bs'))
    (hsharp : ∀ x ∈ vars literals (.leaf t), Sharpless x) {path : List Nat} {node : Node}
    {m m' : Matches} (hm : Matches.unify? p m path node = some m') :
    Finds (Matched literals (.leaf t) node) (vars literals (.leaf t)) m m' path := by
  have hempty : ∀ {R : Assignment → Prop}, R .empty → Finds R (vars literals (.leaf t)) m m path :=
    fun hR => ⟨.empty, hR, by simp [Assignment.empty], .refl _ _ _⟩
  rcases compile_leaf h with ⟨ht, rfl, -⟩ | ⟨ht, hu, rfl, -⟩ | ⟨ht, hu, hl, rfl, -⟩ |
    ⟨ht, hx, -, rfl, -⟩
  · unfold Matches.unify? at hm
    split at hm
    · rename_i u
      split_ifs at hm with hsame
      rw [← Option.some.inj hm]
      exact hempty (by simp [Matched, ht, hsame])
    · simp at hm
  · simp only [Matches.unify?, Option.some.injEq] at hm
    subst hm
    exact hempty (by simp [Matched, ht, hu])
  · unfold Matches.unify? at hm
    split at hm
    · rename_i u hid
      split_ifs at hm with htext
      rw [← Option.some.inj hm]
      exact hempty (by simp [Matched, ht, hu, hl, hid, htext])
    · simp at hm
  · simp only [Matches.unify?, Option.some.injEq] at hm
    subst hm
    rw [vars_leaf_variable ht hx] at hsharp ⊢
    have hsharp : Sharpless t.text := hsharp _ (by simp)
    refine ⟨.single t.text node, (matched_variable ht hx).mpr rfl, fun x u hxu => ?_,
      fun y q hy hq => ⟨?_, rfl⟩⟩
    · unfold Assignment.single at hxu
      split_ifs at hxu with hxt
      subst hxt
      rw [← Option.some.inj hxu]
      exact .one (by simp)
    · refine Bindings.find?_insert_of_ne (fun hkey => ?_) _ _
      obtain ⟨rfl, rfl⟩ := key_inj hy hsharp hkey
      exact hq (by simp) (List.prefix_refl _)

variable (L literals) in
theorem finds_all :
    (∀ (n : Node) (depth : Nat) (bs bs' : Bindings Nat) (p : Pattern),
      Pattern.compile L literals depth n bs = .ok (p, bs') →
        (∀ x ∈ vars literals n, Sharpless x) → ∀ (m : Matches) (path : List Nat) (node : Node)
          (m' : Matches), Matches.unify? p m path node = some m' →
            Finds (Matched literals n node) (vars literals n) m m' path) ∧
    ∀ (ns : List Node) (depth : Nat) (whole : List Node) (repeats : Bool) (bs bs' : Bindings Nat)
      (ps : List Pattern),
      Pattern.compileItems L literals depth whole repeats ns bs = .ok (ps, bs') →
        (∀ x ∈ varsOfItems literals ns, Sharpless x) → ∀ (m : Matches) (path : List Nat)
          (nodes : List Node) (m' : Matches), Matches.unifyItems? ps m path nodes = some m' →
            Finds (MatchedItems literals ns nodes) (varsOfItems literals ns) m m' path := by
  refine itemInduction ?absent ?leaf ?form ?nil ?repeated ?plain
  case absent =>
    intro depth bs bs' p h
    simp [Pattern.compile, Compiled.fail] at h
  case leaf =>
    intro t depth bs bs' p h hsharp m path node m' hm
    exact finds_leaf h hsharp hm
  case form =>
    intro ns ih depth bs bs' p h hsharp m path node m' hm
    obtain ⟨ps, hps, rfl⟩ := compile_form h
    rw [vars_form] at hsharp ⊢
    unfold Matches.unify? at hm
    split at hm
    · rename_i children
      obtain ⟨a, ha, hfound⟩ := ih _ _ _ _ _ _ hps hsharp m path children m' hm
      exact ⟨a, by simpa [Matched] using ha, hfound⟩
    · simp at hm
  case nil =>
    intro depth whole repeats bs bs' ps h _ m path nodes m' hm
    obtain ⟨rfl, -⟩ := compileItems_nil h
    unfold Matches.unifyItems? at hm
    split_ifs at hm with hnil
    rw [← Option.some.inj hm]
    refine ⟨.empty, ?_, by simp [Assignment.empty], .refl _ _ _⟩
    simpa [MatchedItems] using hnil
  case repeated =>
    intro n q ns hq ihn ihns depth whole repeats bs bs' ps h hsharp m path nodes m' hm
    obtain ⟨-, p, qs, cs, hp, hqs, rfl⟩ := compileItems_repeated hq h
    rw [varsOfItems_repeated hq, List.forall_mem_append] at hsharp
    rw [varsOfItems_repeated hq]
    unfold Matches.unifyItems? at hm
    split_ifs at hm with hlen
    dsimp only at hm
    cases heach : Matches.unifyEach? (Matches.unify? p) path 0
        (nodes.take (nodes.length - qs.length)) m with
    | none => simp [heach] at hm
    | some m₁ =>
      simp only [heach] at hm
      obtain ⟨as, has, hstored, hframe⟩ :=
        finds_repeated hp hsharp.1 (ihn _ _ _ _ hp hsharp.1) heach
      rw [List.length_take, Nat.min_eq_left (Nat.sub_le _ _)] at hstored hframe
      obtain ⟨c, hc, hcs, hcf⟩ := ihns _ _ _ _ _ _ hqs hsharp.2 _ _ _ _ hm
      have hdisjoint : ∀ x t, Assignment.gather (vars literals n) as x = some t →
          x ∉ varsOfItems literals ns ∧ Sharpless x := by
        intro x t ht
        have hx := (gather_eq_some has ht).1
        exact ⟨(declares_compile hp).disjoint (declares_compileItems hqs) hx, hsharp.1 x hx⟩
      obtain ⟨hall, hallf⟩ := finds_union hdisjoint hstored hframe hcs hcf
      refine ⟨_, (matchedItems_repeated hq).mpr ⟨_, _, as, c, ?_, has, hc, rfl⟩, hall, hallf⟩
      exact (List.take_append_drop _ _).symm
  case plain =>
    intro n ns hns ihn ihns depth whole repeats bs bs' ps h hsharp m path nodes m' hm
    obtain ⟨p, qs, cs, hp, hqs, rfl⟩ := compileItems_plain hns h
    rw [varsOfItems_plain hns, List.forall_mem_append] at hsharp
    rw [varsOfItems_plain hns]
    cases nodes with
    | nil =>
      rw [Matches.unifyItems?_plain_nil (compile_ne_repeated hp)] at hm
      simp at hm
    | cons node nodes =>
      rw [Matches.unifyItems?_plain (compile_ne_repeated hp), Option.bind_eq_some_iff] at hm
      obtain ⟨m₁, hm₁, hm⟩ := hm
      obtain ⟨b, hb, hbs, hbf⟩ := ihn _ _ _ _ hp hsharp.1 _ _ _ _ hm₁
      obtain ⟨c, hc, hcs, hcf⟩ := ihns _ _ _ _ _ _ hqs hsharp.2 _ _ _ _ hm
      have hdisjoint : ∀ x t, b x = some t → x ∉ varsOfItems literals ns ∧ Sharpless x := by
        intro x t ht
        have hx := mem_vars_of_assigned hb ht
        exact ⟨(declares_compile hp).disjoint (declares_compileItems hqs) hx, hsharp.1 x hx⟩
      obtain ⟨hall, hallf⟩ := finds_union hdisjoint hbs hbf hcs hcf
      exact ⟨_, (matchedItems_plain hns).mpr ⟨node, nodes, b, c, rfl, hb, hc, rfl⟩, hall, hallf⟩

end Sound

/-! ### What is a match does match -/

section Complete

variable (L literals whole) in
theorem lengths_all : ∀ (ns : List Node) (depth : Nat) (bs bs' : Bindings Nat) (ps : List Pattern)
    (nodes : List Node) (a : Assignment),
    Pattern.compileItems L literals depth whole true ns bs = .ok (ps, bs') →
      MatchedItems literals ns nodes a → nodes.length = ps.length := by
  refine (itemInduction (P := fun _ => True) ?absent ?leaf ?form ?nil ?repeated ?plain).2
  case absent => trivial
  case leaf => exact fun _ => trivial
  case form => exact fun _ _ => trivial
  case nil =>
    intro depth bs bs' ps nodes a h hm
    obtain ⟨rfl, -⟩ := compileItems_nil h
    obtain ⟨rfl, -⟩ : nodes = [] ∧ a = .empty := by simpa [MatchedItems] using hm
    rfl
  case repeated =>
    intro n q ns hq _ _ depth bs bs' ps nodes a h _
    exact absurd (compileItems_repeated hq h).1 (by simp)
  case plain =>
    intro n ns hns _ ih depth bs bs' ps nodes a h hm
    obtain ⟨p, qs, cs, -, hqs, rfl⟩ := compileItems_plain hns h
    obtain ⟨node, others, b, c, rfl, -, hc, -⟩ := (matchedItems_plain hns).mp hm
    rw [List.length_cons, List.length_cons, ih _ _ _ _ _ _ hqs hc]

/-- After an ellipsis every item takes one tree. -/
theorem length_of_matchedItems {ns nodes : List Node} {ps : List Pattern} {a : Assignment}
    (h : Pattern.compileItems L literals depth whole true ns bs = .ok (ps, bs'))
    (hm : MatchedItems literals ns nodes a) : nodes.length = ps.length :=
  lengths_all L literals whole ns _ _ _ _ _ _ h hm

theorem unifyEach_complete {u : Matches → List Nat → Node → Option Matches}
    {R : Node → Assignment → Prop} (hu : ∀ n a, R n a → ∀ m path, ∃ m', u m path n = some m')
    (path : List Nat) {ns : List Node} {as : List Assignment} (h : List.Forall₂ R ns as) :
    ∀ (i : Nat) (m : Matches), ∃ m', Matches.unifyEach? u path i ns m = some m' := by
  induction h with
  | nil => exact fun i m => ⟨m, rfl⟩
  | cons hna _ ih =>
    intro i m
    obtain ⟨m₁, hm₁⟩ := hu _ _ hna m (path ++ [i])
    obtain ⟨m', hm'⟩ := ih (i + 1) m₁
    exact ⟨m', by simp [Matches.unifyEach?, hm₁, hm']⟩

variable (L literals) in
theorem unify_all :
    (∀ (n : Node) (depth : Nat) (bs bs' : Bindings Nat) (p : Pattern),
      Pattern.compile L literals depth n bs = .ok (p, bs') → ∀ (node : Node) (a : Assignment),
        Matched literals n node a → ∀ (m : Matches) (path : List Nat),
          ∃ m', Matches.unify? p m path node = some m') ∧
    ∀ (ns : List Node) (depth : Nat) (whole : List Node) (repeats : Bool) (bs bs' : Bindings Nat)
      (ps : List Pattern),
      Pattern.compileItems L literals depth whole repeats ns bs = .ok (ps, bs') →
        ∀ (nodes : List Node) (a : Assignment), MatchedItems literals ns nodes a →
          ∀ (m : Matches) (path : List Nat), ∃ m', Matches.unifyItems? ps m path nodes = some m' := by
  refine itemInduction ?absent ?leaf ?form ?nil ?repeated ?plain
  case absent =>
    intro depth bs bs' p h
    simp [Pattern.compile, Compiled.fail] at h
  case leaf =>
    intro t depth bs bs' p h node a ha m path
    rcases compile_leaf h with ⟨ht, rfl, -⟩ | ⟨ht, hu, rfl, -⟩ | ⟨ht, hu, hl, rfl, -⟩ |
      ⟨ht, hx, -, rfl, -⟩
    · obtain ⟨⟨u, rfl, hsame⟩, -⟩ : (∃ u, node = .leaf u ∧ u.type = t.type ∧
          u.value.same t.value = true) ∧ a = .empty := by simpa [Matched, ht] using ha
      exact ⟨m, by simp [Matches.unify?, hsame]⟩
    · exact ⟨m, by simp [Matches.unify?]⟩
    · obtain ⟨⟨u, hid, htext⟩, -⟩ : (∃ u, node.identifier? = some u ∧ u.text = t.text) ∧
          a = .empty := by simpa [Matched, ht, hu, hl] using ha
      exact ⟨m, by simp [Matches.unify?, hid, htext]⟩
    · exact ⟨_, by rw [Matches.unify?]⟩
  case form =>
    intro ns ih depth bs bs' p h node a ha m path
    obtain ⟨ps, hps, rfl⟩ := compile_form h
    obtain ⟨nodes, rfl, hnodes⟩ : ∃ nodes, node = .form nodes ∧
        MatchedItems literals ns nodes a := by simpa [Matched] using ha
    simpa [Matches.unify?] using ih _ _ _ _ _ _ hps nodes a hnodes m path
  case nil =>
    intro depth whole repeats bs bs' ps h nodes a ha m path
    obtain ⟨rfl, -⟩ := compileItems_nil h
    obtain ⟨rfl, -⟩ : nodes = [] ∧ a = .empty := by simpa [MatchedItems] using ha
    exact ⟨m, by simp [Matches.unifyItems?]⟩
  case repeated =>
    intro n q ns hq ihn ihns depth whole repeats bs bs' ps h nodes a ha m path
    obtain ⟨-, p, qs, cs, hp, hqs, rfl⟩ := compileItems_repeated hq h
    obtain ⟨repetitions, others, as, b, rfl, has, hb, -⟩ := (matchedItems_repeated hq).mp ha
    have hlen : others.length = qs.length := length_of_matchedItems hqs hb
    have hnum : (repetitions ++ others).length - qs.length = repetitions.length := by
      rw [List.length_append]
      omega
    have hge : ¬ (repetitions ++ others).length < qs.length := by
      rw [List.length_append]
      omega
    obtain ⟨m₁, hm₁⟩ := unifyEach_complete (ihn _ _ _ _ hp) path has 0 m
    obtain ⟨m', hm'⟩ := ihns _ _ _ _ _ _ hqs others b hb (m₁.count path repetitions.length p) path
    refine ⟨m', ?_⟩
    rw [Matches.unifyItems?, if_neg hge]
    simp only [hnum, List.take_left', List.drop_left', hm₁, hm']
  case plain =>
    intro n ns hns ihn ihns depth whole repeats bs bs' ps h nodes a ha m path
    obtain ⟨p, qs, cs, hp, hqs, rfl⟩ := compileItems_plain hns h
    obtain ⟨node, others, b, c, rfl, hb, hc, -⟩ := (matchedItems_plain hns).mp ha
    obtain ⟨m₁, hm₁⟩ := ihn _ _ _ _ hp node b hb m path
    obtain ⟨m', hm'⟩ := ihns _ _ _ _ _ _ hqs others c hc m₁ path
    exact ⟨m', by rw [Matches.unifyItems?_plain (compile_ne_repeated hp), hm₁]; exact hm'⟩

end Complete

/-! ### There is only one match -/

section Unique

theorem forall₂_unique {R : Node → Assignment → Prop} {ns : List Node} {as : List Assignment}
    (hR : ∀ n a b, R n a → R n b → a = b) (h : List.Forall₂ R ns as) :
    ∀ {bs : List Assignment}, List.Forall₂ R ns bs → as = bs := by
  induction h with
  | nil =>
    intro bs h'
    cases h'
    rfl
  | cons hna _ ih =>
    intro bs h'
    cases h' with
    | cons hnb hrest => rw [hR _ _ _ hna hnb, ih hrest]

variable (L literals) in
theorem unique_all :
    (∀ (n : Node) (depth : Nat) (bs bs' : Bindings Nat) (p : Pattern),
      Pattern.compile L literals depth n bs = .ok (p, bs') → ∀ (node : Node) (a b : Assignment),
        Matched literals n node a → Matched literals n node b → a = b) ∧
    ∀ (ns : List Node) (depth : Nat) (whole : List Node) (repeats : Bool) (bs bs' : Bindings Nat)
      (ps : List Pattern),
      Pattern.compileItems L literals depth whole repeats ns bs = .ok (ps, bs') →
        ∀ (nodes : List Node) (a b : Assignment), MatchedItems literals ns nodes a →
          MatchedItems literals ns nodes b → a = b := by
  refine itemInduction ?absent ?leaf ?form ?nil ?repeated ?plain
  case absent => exact fun _ _ _ _ _ _ _ _ ha _ => absurd ha (by simp [Matched])
  case leaf =>
    intro t depth bs bs' p h node a b ha hb
    by_cases hx : t.type = .identifier ∧ IsVariable literals t.text
    · rw [(matched_variable hx.1 hx.2).mp ha, (matched_variable hx.1 hx.2).mp hb]
    · rw [matched_other (not_and.mp hx) ha, matched_other (not_and.mp hx) hb]
  case form =>
    intro ns ih depth bs bs' p h node a b ha hb
    obtain ⟨ps, hps, rfl⟩ := compile_form h
    obtain ⟨nodes, rfl, hnodes⟩ : ∃ nodes, node = .form nodes ∧
        MatchedItems literals ns nodes a := by simpa [Matched] using ha
    exact ih _ _ _ _ _ _ hps nodes a b hnodes (by simpa [Matched] using hb)
  case nil =>
    intro depth whole repeats bs bs' ps h nodes a b ha hb
    obtain ⟨-, rfl⟩ : nodes = [] ∧ a = .empty := by simpa [MatchedItems] using ha
    obtain ⟨-, rfl⟩ : nodes = [] ∧ b = .empty := by simpa [MatchedItems] using hb
    rfl
  case repeated =>
    intro n q ns hq ihn ihns depth whole repeats bs bs' ps h nodes a b ha hb
    obtain ⟨-, p, qs, cs, hp, hqs, rfl⟩ := compileItems_repeated hq h
    obtain ⟨reps, others, as, c, rfl, has, hc, rfl⟩ := (matchedItems_repeated hq).mp ha
    obtain ⟨reps', others', as', c', heq, has', hc', rfl⟩ := (matchedItems_repeated hq).mp hb
    -- The items after the ellipsis take the same number of trees both times.
    have hlen : others.length = others'.length :=
      (length_of_matchedItems hqs hc).trans (length_of_matchedItems hqs hc').symm
    obtain ⟨rfl, rfl⟩ := List.append_inj' heq hlen
    rw [forall₂_unique (ihn _ _ _ _ hp) has has', ihns _ _ _ _ _ _ hqs _ _ _ hc hc']
  case plain =>
    intro n ns hns ihn ihns depth whole repeats bs bs' ps h nodes a b ha hb
    obtain ⟨p, qs, cs, hp, hqs, rfl⟩ := compileItems_plain hns h
    obtain ⟨node, others, c, d, rfl, hc, hd, rfl⟩ := (matchedItems_plain hns).mp ha
    obtain ⟨node', others', c', d', heq, hc', hd', rfl⟩ := (matchedItems_plain hns).mp hb
    obtain ⟨rfl, rfl⟩ := List.cons.inj heq
    rw [ihn _ _ _ _ hp _ _ _ hc hc', ihns _ _ _ _ _ _ hqs _ _ _ hd hd']

end Unique

/-! ### The patterns of a clause -/

section Operands

variable {repeats : Bool} {ns nodes : List Node} {ps : List Pattern}

theorem matchedItems_unique
    (h : Pattern.compileItems L literals depth whole repeats ns bs = .ok (ps, bs'))
    {a b : Assignment} (ha : MatchedItems literals ns nodes a)
    (hb : MatchedItems literals ns nodes b) : a = b :=
  (unique_all L literals).2 ns _ _ _ _ _ _ h nodes a b ha hb

/-- Trees that should not match do not. -/
theorem unifyItems_eq_none
    (h : Pattern.compileItems L literals depth whole repeats ns bs = .ok (ps, bs'))
    (hsharp : ∀ x ∈ varsOfItems literals ns, Sharpless x)
    (hno : ¬ ∃ a, MatchedItems literals ns nodes a) (m : Matches) (path : List Nat) :
    Matches.unifyItems? ps m path nodes = none := by
  cases hm : Matches.unifyItems? ps m path nodes with
  | none => rfl
  | some m' =>
    obtain ⟨a, ha, -⟩ := (finds_all L literals).2 ns _ _ _ _ _ _ h hsharp m path nodes m' hm
    exact absurd ⟨a, ha⟩ hno

/-- Trees that should match do, and the tables then hold what each variable stands for. -/
theorem unifyItems_eq_some
    (h : Pattern.compileItems L literals depth whole repeats ns bs = .ok (ps, bs'))
    (hsharp : ∀ x ∈ varsOfItems literals ns, Sharpless x) {a : Assignment}
    (ha : MatchedItems literals ns nodes a) (m : Matches) (path : List Nat) :
    ∃ m', Matches.unifyItems? ps m path nodes = some m' ∧
      ∀ x t, a x = some t → Stored m' x path t := by
  obtain ⟨m', hm⟩ := (unify_all L literals).2 ns _ _ _ _ _ _ h nodes a ha m path
  obtain ⟨b, hb, hstored, -⟩ := (finds_all L literals).2 ns _ _ _ _ _ _ h hsharp m path nodes m' hm
  rw [← matchedItems_unique h ha hb] at hstored
  exact ⟨m', hm, hstored⟩

/-- A declared variable has a tree of matches of the depth it was declared with. -/
theorem hasDepth_of_declared
    (h : Pattern.compileItems L literals depth whole repeats ns bs = .ok (ps, bs'))
    {a : Assignment} (ha : MatchedItems literals ns nodes a) {x : Text} {t : MatchTree}
    (ht : a x = some t) : ∃ k, bs'.find? x = some (k + depth) ∧ HasDepth k t := by
  have hx := mem_varsOfItems_of_assigned ha ht
  obtain ⟨k, hk, hdeep⟩ := (hasDepth_all L literals).2 ns _ _ _ _ _ _ h x hx
  obtain ⟨u, hu, hud⟩ := hdeep nodes a ha
  rw [Option.some.inj (hu.symm.trans ht)] at hud
  exact ⟨k, hk, hud⟩

end Operands

end Reference

end LittleLisp
