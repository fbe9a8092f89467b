/-
# Writing agrees with its meaning

A template that compiles is written out from the tables as it should be, and fails to be
written exactly if an ellipsis repeats two variables that were matched a different number
of times. The variable that decides how often an item is repeated is one of those that the
ellipsis repeats, so it does not matter which one was chosen.

Key definitions: `Reference.Held`, `Reference.InReach`, `Reference.Agrees`.
Key theorems: `Reference.sameCounts_iff`, `Reference.countAt_driver`, `Reference.agrees_all`.
-/
import LittleLisp.Proofs.Expansion.Matching

namespace LittleLisp

namespace Reference

open Matches (key)

variable {L : Legend} {bs : Bindings Nat} {depth : Nat}

/-! ### What compiling a template checks -/

section Compiling

theorem template_leaf {t : Token} {u : Template}
    (h : Template.compile L bs depth (.leaf t) = .ok u) :
    (u = .leaf t ∧ (t.type = .identifier → bs.find? t.text = none)) ∨
      ∃ d, t.type = .identifier ∧ bs.find? t.text = some d ∧ d ≤ depth ∧
        u = .variable t.text d := by
  unfold Template.compile at h
  split_ifs at h with ht
  · cases h
    exact Or.inl ⟨rfl, fun h => absurd h ht⟩
  · cases hd : bs.find? t.text with
    | none =>
      rw [hd] at h
      cases h
      exact Or.inl ⟨rfl, fun _ => rfl⟩
    | some d =>
      simp only [hd] at h
      split_ifs at h with hlt
      · simp [Compiled.fail] at h
      · cases h
        exact Or.inr ⟨d, not_not.mp ht, rfl, Nat.le_of_not_lt hlt, rfl⟩

theorem template_form {ns : List Node} {u : Template}
    (h : Template.compile L bs depth (.form ns) = .ok u) :
    ∃ us, Template.compileItems L bs depth ns = .ok us ∧ u = .list us := by
  unfold Template.compile at h
  obtain ⟨us, hus, h⟩ := except_bind_eq_ok.mp h
  cases h
  exact ⟨us, hus, rfl⟩

theorem templateItems_nil {us : List Template}
    (h : Template.compileItems L bs depth [] = .ok us) : us = [] := by
  simpa [Template.compileItems] using h.symm

/-- An item with an ellipsis is repeated as often as one of its variables, which was bound deep
enough. -/
theorem templateItems_repeated {n m : Node} {ns : List Node} {us : List Template}
    (hm : m.isEllipsis = true) (h : Template.compileItems L bs depth (n :: m :: ns) = .ok us) :
    ∃ u x vs, Template.compile L bs (depth + 1) n = .ok u ∧ u.driver? (depth + 1) = some x ∧
      Template.compileItems L bs depth ns = .ok vs ∧ us = .repeated x u :: vs := by
  unfold Template.compileItems at h
  rw [if_pos hm] at h
  obtain ⟨u, hu, h⟩ := except_bind_eq_ok.mp h
  cases hx : u.driver? (depth + 1) with
  | none =>
    simp only [hx] at h
    obtain ⟨t, -, h⟩ := except_bind_eq_ok.mp h
    simp [Compiled.fail] at h
  | some x =>
    simp only [hx] at h
    obtain ⟨vs, hvs, h⟩ := except_bind_eq_ok.mp h
    cases h
    exact ⟨u, x, vs, hu, hx, hvs, rfl⟩

theorem templateItems_plain {n : Node} {ns : List Node} {us : List Template}
    (hns : beginsWithEllipsis ns = false)
    (h : Template.compileItems L bs depth (n :: ns) = .ok us) :
    ∃ u vs, Template.compile L bs depth n = .ok u ∧
      Template.compileItems L bs depth ns = .ok vs ∧ us = u :: vs := by
  cases ns with
  | nil =>
    unfold Template.compileItems at h
    obtain ⟨u, hu, h⟩ := except_bind_eq_ok.mp h
    cases h
    exact ⟨u, [], hu, by simp [Template.compileItems], rfl⟩
  | cons m ns =>
    have hm : ¬ m.isEllipsis = true := by simpa [beginsWithEllipsis] using hns
    unfold Template.compileItems at h
    rw [if_neg hm] at h
    obtain ⟨u, hu, h⟩ := except_bind_eq_ok.mp h
    obtain ⟨vs, hvs, h⟩ := except_bind_eq_ok.mp h
    cases h
    exact ⟨u, vs, hu, hvs, rfl⟩

theorem template_ne_repeated {n : Node} {u : Template}
    (h : Template.compile L bs depth n = .ok u) (x : Text) (v : Template) : u ≠ .repeated x v := by
  cases n with
  | absent => simp [Template.compile, Compiled.fail] at h
  | leaf t => rcases template_leaf h with ⟨rfl, -⟩ | ⟨d, -, -, -, rfl⟩ <;> simp
  | form ns =>
    obtain ⟨us, -, rfl⟩ := template_form h
    simp

variable (L bs) in
theorem driver_all (least : Nat) (x : Text) :
    (∀ (n : Node) (depth : Nat) (u : Template), Template.compile L bs depth n = .ok u →
      u.driver? least = some x → x ∈ names n ∧ ∃ d, bs.find? x = some d ∧ least ≤ d) ∧
    ∀ (ns : List Node) (depth : Nat) (us : List Template),
      Template.compileItems L bs depth ns = .ok us → Template.driverOfItems? least us = some x →
        x ∈ namesOfItems ns ∧ ∃ d, bs.find? x = some d ∧ least ≤ d := by
  refine itemInduction ?absent ?leaf ?form ?nil ?repeated ?plain
  case absent =>
    intro depth u h
    simp [Template.compile, Compiled.fail] at h
  case leaf =>
    intro t depth u h hx
    rcases template_leaf h with ⟨rfl, -⟩ | ⟨d, ht, hd, -, rfl⟩
    · simp [Template.driver?] at hx
    · unfold Template.driver? at hx
      split_ifs at hx with hle
      rw [← Option.some.inj hx]
      exact ⟨by simp [names, ht], d, hd, hle.1⟩
  case form =>
    intro ns ih depth u h hx
    obtain ⟨us, hus, rfl⟩ := template_form h
    rw [names]
    exact ih depth us hus (by simpa [Template.driver?] using hx)
  case nil =>
    intro depth us h hx
    rw [templateItems_nil h] at hx
    simp [Template.driverOfItems?] at hx
  case repeated =>
    intro n m ns hm ihn ihns depth us h hx
    obtain ⟨u, y, vs, hu, -, hvs, rfl⟩ := templateItems_repeated hm h
    rw [namesOfItems_repeated hm, List.mem_append]
    simp only [Template.driverOfItems?, Template.driver?] at hx
    split at hx
    · rename_i z hz
      obtain ⟨hmem, hd⟩ := ihn _ u hu (hz.trans hx)
      exact ⟨Or.inl hmem, hd⟩
    · obtain ⟨hmem, hd⟩ := ihns _ vs hvs hx
      exact ⟨Or.inr hmem, hd⟩
  case plain =>
    intro n ns hns ihn ihns depth us h hx
    obtain ⟨u, vs, hu, hvs, rfl⟩ := templateItems_plain hns h
    rw [namesOfItems_plain hns, List.mem_append]
    simp only [Template.driverOfItems?] at hx
    split at hx
    · rename_i z hz
      obtain ⟨hmem, hd⟩ := ihn _ u hu (hz.trans hx)
      exact ⟨Or.inl hmem, hd⟩
    · obtain ⟨hmem, hd⟩ := ihns _ vs hvs hx
      exact ⟨Or.inr hmem, hd⟩

end Compiling

/-! ### Variables in a repetition -/

section Variables

variable {a : Assignment} {m : Matches} {path : List Nat}

/-- The declared variables are the assigned ones, with trees of matches of the declared depth, and
the tables hold these trees. -/
structure Held (bs : Bindings Nat) (a : Assignment) (m : Matches) : Prop where
  declared : ∀ x t, a x = some t → ∃ d, bs.find? x = some d ∧ HasDepth d t ∧ Stored m x [] t
  undeclared : ∀ x, a x = none → bs.find? x = none

/-- A repetition that exists for all variables among some names. -/
def InReach (a : Assignment) (xs : List Text) (path : List Nat) : Prop :=
  ∀ x ∈ xs, ∀ t, a x = some t → ∃ u, t.follow path = some u

theorem Held.none_of_find? (h : Held bs a m) {x : Text} (hx : bs.find? x = none) :
    a x = none := by
  cases ha : a x with
  | none => rfl
  | some t =>
    obtain ⟨d, hd, -⟩ := h.declared x t ha
    simp [hx] at hd

theorem Held.some_of_find? (h : Held bs a m) {x : Text} {d : Nat} (hx : bs.find? x = some d) :
    ∃ t, a x = some t ∧ HasDepth d t ∧ Stored m x [] t := by
  cases ha : a x with
  | none =>
    rw [h.undeclared x ha] at hx
    simp at hx
  | some t =>
    obtain ⟨e, he, hdeep, hstored⟩ := h.declared x t ha
    rw [Option.some.inj (he.symm.trans hx)] at hdeep
    exact ⟨t, rfl, hdeep, hstored⟩

/-- Beyond the depth of a tree of matches there is one match, and only the outer repetition numbers
matter. -/
theorem follow_beyond : ∀ {d : Nat} {path : List Nat} {t u : MatchTree}, HasDepth d t →
    d ≤ path.length → t.follow path = some u →
      ∃ n, u = .one n ∧ t.follow (path.take d) = some (.one n)
  | 0, path, t, u, hd, _, hu => by
    obtain ⟨n, rfl⟩ := hd.eq_one
    refine ⟨n, ?_, rfl⟩
    cases path with
    | nil => simpa [MatchTree.follow] using hu.symm
    | cons i path => simpa [MatchTree.follow] using hu.symm
  | d + 1, [], t, u, _, hle, _ => by simp at hle
  | d + 1, i :: path, t, u, hd, hle, hu => by
    obtain ⟨ts, rfl, hts⟩ := hd.eq_many
    cases hi : ts[i]? with
    | none => simp [MatchTree.follow, hi] at hu
    | some v =>
      simp only [MatchTree.follow, hi] at hu
      have hlen : d ≤ path.length := by simpa using hle
      obtain ⟨n, rfl, hn⟩ := follow_beyond (hts v (List.mem_of_getElem? hi)) hlen hu
      exact ⟨n, rfl, by simpa [MatchTree.follow, hi] using hn⟩

/-- Inside the depth of a tree of matches there are repetitions, and the tables count them. -/
theorem follow_inside {d : Nat} {x : Text} {t u : MatchTree} (hd : HasDepth d t)
    (hs : Stored m x [] t) (hlt : path.length < d) (hu : t.follow path = some u) :
    ∃ ts, u = .many ts ∧ m.counts.find? (key x path) = some ts.length := by
  obtain ⟨k, rfl⟩ : ∃ k, d = (k + 1) + path.length := ⟨d - path.length - 1, by omega⟩
  obtain ⟨hstored, hdeep⟩ := stored_follow hs hd hu
  obtain ⟨ts, rfl, -⟩ := hdeep.eq_many
  cases hstored with
  | many hcount _ => exact ⟨ts, rfl, by simpa using hcount⟩

/-- A variable is counted in a repetition if it was bound deeper than that. -/
theorem countAt_iff (h : Held bs a m) {x : Text} {d : Nat} (hx : bs.find? x = some d)
    (hreach : ∀ t, a x = some t → ∃ u, t.follow path = some u) (k : Nat) :
    CountAt a path x k ↔ path.length < d ∧ m.counts.find? (key x path) = some k := by
  obtain ⟨t, ht, hdeep, hstored⟩ := h.some_of_find? hx
  obtain ⟨u, hu⟩ := hreach t ht
  constructor
  · rintro ⟨t', ts, ht', hts, rfl⟩
    obtain rfl : t = t' := Option.some.inj (ht.symm.trans ht')
    obtain rfl : u = .many ts := Option.some.inj (hu.symm.trans hts)
    have hlt : path.length < d := by
      by_contra hge
      obtain ⟨n, hn, -⟩ := follow_beyond hdeep (Nat.le_of_not_lt hge) hu
      simp at hn
    obtain ⟨vs, hvs, hcount⟩ := follow_inside hdeep hstored hlt hu
    obtain rfl : ts = vs := by simpa using hvs
    exact ⟨hlt, hcount⟩
  · rintro ⟨hlt, hk⟩
    obtain ⟨ts, rfl, hcount⟩ := follow_inside hdeep hstored hlt hu
    exact ⟨t, ts, ht, hu, Option.some.inj (hcount.symm.trans hk)⟩

theorem countAt_undeclared (h : Held bs a m) {x : Text} (hx : bs.find? x = none) (k : Nat) :
    ¬ CountAt a path x k := by
  rintro ⟨t, ts, ht, -⟩
  simp [h.none_of_find? hx] at ht

theorem Repeats.unique {template : Node} {j k : Nat} (hj : Repeats a path template j)
    (hk : Repeats a path template k) : j = k := by
  obtain ⟨x, hx, hcount⟩ := hj.1
  exact hk.2 x hx j hcount

/-- The repetitions of an item are in reach if the item is. -/
theorem InReach.inside {template : Node} {k i : Nat} (h : InReach a (names template) path)
    (hk : Repeats a path template k) (hi : i < k) :
    InReach a (names template) (path ++ [i]) := by
  intro x hx t ht
  obtain ⟨u, hu⟩ := h x hx t ht
  rw [follow_append hu]
  cases u with
  | one n => exact ⟨.one n, rfl⟩
  | many ts =>
    have hlen : ts.length = k := hk.2 x hx _ ⟨t, ts, ht, hu, rfl⟩
    obtain ⟨v, hv⟩ : ∃ v, ts[i]? = some v := ⟨_, List.getElem?_eq_getElem (by omega)⟩
    exact ⟨v, by simp [MatchTree.follow, hv]⟩

end Variables

/-! ### Even counts -/

section Counts

variable {a : Assignment} {m : Matches}

theorem sameCounts_variable (hm : Held bs a m) {x : Text} {d : Nat} (hd : bs.find? x = some d)
    {path : List Nat} (hreach : ∀ t, a x = some t → ∃ u, t.follow path = some u) (k : Nat) :
    m.sameCounts path k (.variable x d) = true ↔ ∀ j, CountAt a path x j → j = k := by
  simp only [countAt_iff hm hd hreach, Matches.sameCounts]
  split_ifs with hlt
  · obtain ⟨t, ht, hdeep, hstored⟩ := hm.some_of_find? hd
    obtain ⟨u, hu⟩ := hreach t ht
    obtain ⟨ts, -, hcount⟩ := follow_inside hdeep hstored hlt hu
    simp [hcount, hlt]
  · simp [hlt]

variable (L) in
theorem sameCounts_all (hm : Held bs a m) (k : Nat) :
    (∀ (n : Node) (depth : Nat) (u : Template), Template.compile L bs depth n = .ok u →
      ∀ path : List Nat, InReach a (names n) path →
        (m.sameCounts path k u = true ↔ ∀ x ∈ names n, ∀ j, CountAt a path x j → j = k)) ∧
    ∀ (ns : List Node) (depth : Nat) (us : List Template),
      Template.compileItems L bs depth ns = .ok us → ∀ path : List Nat,
        InReach a (namesOfItems ns) path →
          (m.sameCountsItems path k us = true ↔
            ∀ x ∈ namesOfItems ns, ∀ j, CountAt a path x j → j = k) := by
  refine itemInduction ?absent ?leaf ?form ?nil ?repeated ?plain
  case absent =>
    intro depth u h
    simp [Template.compile, Compiled.fail] at h
  case leaf =>
    intro t depth u h path hreach
    rcases template_leaf h with ⟨rfl, hnone⟩ | ⟨d, ht, hd, -, rfl⟩
    · simp only [Matches.sameCounts, true_iff]
      intro x hx j hj
      by_cases ht : t.type = .identifier
      · obtain rfl : x = t.text := by simpa [names, ht] using hx
        exact absurd hj (countAt_undeclared hm (hnone ht) j)
      · simp [names, ht] at hx
    · have hnames : names (.leaf t) = [t.text] := by simp [names, ht]
      rw [hnames] at hreach ⊢
      rw [sameCounts_variable hm hd (hreach t.text (by simp)), List.forall_mem_singleton]
  case form =>
    intro ns ih depth u h path hreach
    obtain ⟨us, hus, rfl⟩ := template_form h
    rw [names] at hreach ⊢
    rw [Matches.sameCounts]
    exact ih depth us hus path hreach
  case nil =>
    intro depth us h path _
    rw [templateItems_nil h]
    simp [Matches.sameCountsItems, namesOfItems]
  case repeated =>
    intro n q ns hq ihn ihns depth us h path hreach
    obtain ⟨u, x, vs, hu, -, hvs, rfl⟩ := templateItems_repeated hq h
    rw [namesOfItems_repeated hq] at hreach ⊢
    have hleft := ihn _ u hu path fun x hx => hreach x (List.mem_append_left _ hx)
    have hright := ihns _ vs hvs path fun x hx => hreach x (List.mem_append_right _ hx)
    rw [Matches.sameCountsItems, Bool.and_eq_true, Matches.sameCounts, hleft, hright,
      List.forall_mem_append]
  case plain =>
    intro n ns hns ihn ihns depth us h path hreach
    obtain ⟨u, vs, hu, hvs, rfl⟩ := templateItems_plain hns h
    rw [namesOfItems_plain hns] at hreach ⊢
    have hleft := ihn _ u hu path fun x hx => hreach x (List.mem_append_left _ hx)
    have hright := ihns _ vs hvs path fun x hx => hreach x (List.mem_append_right _ hx)
    rw [Matches.sameCountsItems, Bool.and_eq_true, hleft, hright, List.forall_mem_append]

/-- The check on an item says that all variables which its ellipsis repeats were matched equally
often. -/
theorem sameCounts_iff (hm : Held bs a m) {n : Node} {u : Template}
    (h : Template.compile L bs depth n = .ok u) {path : List Nat}
    (hreach : InReach a (names n) path) (k : Nat) :
    m.sameCounts path k u = true ↔ ∀ x ∈ names n, ∀ j, CountAt a path x j → j = k :=
  (sameCounts_all L hm k).1 n _ u h path hreach

/-- The variable that decides how often an item is repeated is one that its ellipsis repeats. -/
theorem countAt_driver (hm : Held bs a m) {n : Node} {u : Template} {path : List Nat}
    (hlen : path.length = depth) (h : Template.compile L bs (depth + 1) n = .ok u) {x : Text}
    (hx : u.driver? (depth + 1) = some x) (hreach : InReach a (names n) path) :
    x ∈ names n ∧ CountAt a path x ((m.counts.find? (key x path)).getD 0) := by
  obtain ⟨hmem, d, hd, hle⟩ := (driver_all L bs (depth + 1) x).1 n _ u h hx
  have hlt : path.length < d := by omega
  obtain ⟨t, ht, hdeep, hstored⟩ := hm.some_of_find? hd
  obtain ⟨v, hv⟩ := hreach x hmem t ht
  obtain ⟨ts, rfl, hcount⟩ := follow_inside hdeep hstored hlt hv
  exact ⟨hmem, t, ts, ht, hv, by simp [hcount]⟩

end Counts

/-! ### Repetitions one after the other -/

section Each

variable {expand : List Nat → Option Node} {path : List Nat}

theorem expandEach_some_iff : ∀ (k i : Nat) (ns : List Node),
    Matches.expandEach? expand path i k = some ns ↔
      ns.length = k ∧ ∀ j n, ns[j]? = some n → expand (path ++ [i + j]) = some n
  | 0, i, ns => by
    cases ns with
    | nil => simp [Matches.expandEach?]
    | cons n ns => simp [Matches.expandEach?]
  | k + 1, i, ns => by
    simp only [Matches.expandEach?, Option.bind_eq_bind, Option.bind_eq_some_iff]
    constructor
    · rintro ⟨t, ht, ts, hts, h⟩
      obtain rfl : t :: ts = ns := Option.some.inj h
      obtain ⟨hlen, hall⟩ := (expandEach_some_iff k (i + 1) ts).mp hts
      refine ⟨by rw [List.length_cons, hlen], fun j n hn => ?_⟩
      cases j with
      | zero =>
        obtain rfl : t = n := by simpa using hn
        simpa using ht
      | succ j =>
        have hj := hall j n (by simpa using hn)
        rwa [Nat.add_assoc, Nat.add_comm 1 j] at hj
    · rintro ⟨hlen, hall⟩
      cases ns with
      | nil => simp at hlen
      | cons t ts =>
        refine ⟨t, by simpa using hall 0 t rfl, ts, ?_, rfl⟩
        refine (expandEach_some_iff k (i + 1) ts).mpr ⟨by simpa using hlen, fun j n hn => ?_⟩
        have hj := hall (j + 1) n (by simpa using hn)
        rwa [Nat.add_comm j 1, ← Nat.add_assoc] at hj

theorem expandEach_none_iff : ∀ (k i : Nat),
    Matches.expandEach? expand path i k = none ↔ ∃ j < k, expand (path ++ [i + j]) = none
  | 0, i => by simp [Matches.expandEach?]
  | k + 1, i => by
    have hrest := expandEach_none_iff k (i + 1)
    simp only [Matches.expandEach?, Option.bind_eq_bind]
    constructor
    · intro h
      cases ht : expand (path ++ [i]) with
      | none => exact ⟨0, by omega, by simpa using ht⟩
      | some t =>
        cases hts : Matches.expandEach? expand path (i + 1) k with
        | none =>
          obtain ⟨j, hj, hnone⟩ := hrest.mp hts
          exact ⟨j + 1, by omega, by rwa [Nat.add_comm j 1, ← Nat.add_assoc]⟩
        | some ts => simp [ht, hts] at h
    · rintro ⟨j, hj, hnone⟩
      cases j with
      | zero => simp [show expand (path ++ [i]) = none by simpa using hnone]
      | succ j =>
        have hlater : Matches.expandEach? expand path (i + 1) k = none := by
          refine hrest.mpr ⟨j, by omega, ?_⟩
          rwa [Nat.add_assoc, Nat.add_comm 1 j]
        cases expand (path ++ [i]) <;> simp [hlater]

theorem expandItems_repeated (m : Matches) (x : Text) (u : Template) (us : List Template)
    (path : List Nat) :
    m.expandItems? (.repeated x u :: us) path =
      if m.sameCounts path ((m.counts.find? (key x path)).getD 0) u then
        (Matches.expandEach? (m.expand? u) path 0 ((m.counts.find? (key x path)).getD 0)).bind
          fun repetitions => (m.expandItems? us path).map fun others => repetitions ++ others
      else none := by
  simp only [Matches.expandItems?, Option.bind_eq_bind, Option.map_eq_bind]
  rfl

end Each

/-! ### Templates -/

section Templates

variable {a : Assignment} {m : Matches}

/-- A table entry is written as the reference says, and not at all if the reference says so. -/
def Agrees (result : Option Node) (written : Node → Prop) (uneven : Prop) : Prop :=
  (∀ n, result = some n ↔ written n) ∧ (result = none ↔ uneven)

/-- The same for the items of a list. -/
def AgreesItems (result : Option (List Node)) (written : List Node → Prop) (uneven : Prop) : Prop :=
  (∀ ns, result = some ns ↔ written ns) ∧ (result = none ↔ uneven)

theorem agrees_leaf (hm : Held bs a m) {t : Token} {u : Template}
    (h : Template.compile L bs depth (.leaf t) = .ok u) {path : List Nat}
    (hlen : path.length = depth) (hreach : InReach a (names (.leaf t)) path) :
    Agrees (m.expand? u path) (Written a (.leaf t) path) (Uneven a (.leaf t) path) := by
  rcases template_leaf h with ⟨rfl, hnone⟩ | ⟨d, ht, hd, hle, rfl⟩
  · have hval : (if t.type = .identifier then a t.text else none) = none := by
      split_ifs with ht
      · exact hm.none_of_find? (hnone ht)
      · rfl
    refine ⟨fun n => ?_, by simp [Matches.expand?, Uneven]⟩
    simp only [Matches.expand?, Written, hval, Option.some.injEq]
    exact eq_comm
  · obtain ⟨v, hv, hdeep, hstored⟩ := hm.some_of_find? hd
    obtain ⟨w, hw⟩ := hreach t.text (by simp [names, ht]) v hv
    obtain ⟨n, rfl, htake⟩ := follow_beyond hdeep (by omega : d ≤ path.length) hw
    have hdepth : HasDepth (0 + (path.take d).length) v := by
      rw [List.length_take, Nat.min_eq_left (by omega), Nat.zero_add]
      exact hdeep
    obtain ⟨hplace, -⟩ := stored_follow hstored hdepth htake
    cases hplace with
    | one hfind =>
      have hexpand : m.expand? (.variable t.text d) path = some n := by
        simpa [Matches.expand?] using hfind
      refine ⟨fun r => ?_, by simp [hexpand, Uneven]⟩
      simp only [hexpand, Written, ht, if_true, hv, hw, Option.some.injEq, MatchTree.one.injEq]

theorem agrees_cons {r : Option Node} {rs : Option (List Node)} {w : Node → Prop}
    {ws : List Node → Prop} {e es : Prop} (h : Agrees r w e) (hs : AgreesItems rs ws es) :
    AgreesItems (r.bind fun n => rs.map fun ns => n :: ns)
      (fun ns => ∃ n others, ns = n :: others ∧ w n ∧ ws others) (e ∨ es) := by
  refine ⟨fun ns => ?_, ?_⟩
  · simp only [Option.bind_eq_some_iff, Option.map_eq_some_iff, h.1, hs.1]
    constructor
    · rintro ⟨n, hn, others, hothers, rfl⟩
      exact ⟨n, others, rfl, hn, hothers⟩
    · rintro ⟨n, others, rfl, hn, hothers⟩
      exact ⟨n, hn, others, hothers, rfl⟩
  · rw [← h.2, ← hs.2]
    cases r <;> cases rs <;> simp

/-- An item with an ellipsis whose variables were matched equally often. -/
theorem agrees_even {u : Template} {n : Node} {path : List Nat} {k : Nat}
    (hk : Repeats a path n k) {rs : Option (List Node)} {ws : List Node → Prop} {es : Prop}
    (h : ∀ i < k, Agrees (m.expand? u (path ++ [i])) (Written a n (path ++ [i]))
      (Uneven a n (path ++ [i])))
    (hs : AgreesItems rs ws es) :
    AgreesItems
      ((Matches.expandEach? (m.expand? u) path 0 k).bind fun repetitions =>
        rs.map fun others => repetitions ++ others)
      (fun ns => ∃ repetitions others, ns = repetitions ++ others ∧
        Repeats a path n repetitions.length ∧
          (∀ i r, repetitions[i]? = some r → Written a n (path ++ [i]) r) ∧ ws others)
      ((∃ x ∈ names n, ∃ y ∈ names n, ∃ j l, CountAt a path x j ∧ CountAt a path y l ∧ j ≠ l) ∨
        (∃ i l, Repeats a path n l ∧ i < l ∧ Uneven a n (path ++ [i])) ∨ es) := by
  refine ⟨fun ns => ?_, ?_⟩
  · simp only [Option.bind_eq_some_iff, Option.map_eq_some_iff, hs.1, expandEach_some_iff,
      Nat.zero_add]
    constructor
    · rintro ⟨repetitions, ⟨hlen, hall⟩, others, hothers, rfl⟩
      refine ⟨repetitions, others, rfl, hlen.symm ▸ hk, fun i r hr => ?_, hothers⟩
      have hi : i < k := hlen ▸ (List.getElem?_eq_some_iff.mp hr).1
      exact ((h i hi).1 r).mp (hall i r hr)
    · rintro ⟨repetitions, others, rfl, hrep, hall, hothers⟩
      have hlen : repetitions.length = k := hrep.unique hk
      refine ⟨repetitions, ⟨hlen, fun i r hr => ?_⟩, others, hothers, rfl⟩
      have hi : i < k := hlen ▸ (List.getElem?_eq_some_iff.mp hr).1
      exact ((h i hi).1 r).mpr (hall i r hr)
  · have heven : ¬ ∃ x ∈ names n, ∃ y ∈ names n, ∃ j l,
        CountAt a path x j ∧ CountAt a path y l ∧ j ≠ l := by
      rintro ⟨x, hx, y, hy, j, l, hj, hl, hne⟩
      exact hne ((hk.2 x hx j hj).trans (hk.2 y hy l hl).symm)
    have hnone : Matches.expandEach? (m.expand? u) path 0 k = none ↔
        ∃ i l, Repeats a path n l ∧ i < l ∧ Uneven a n (path ++ [i]) := by
      rw [expandEach_none_iff]
      constructor
      · rintro ⟨i, hi, hni⟩
        rw [Nat.zero_add] at hni
        exact ⟨i, k, hk, hi, (h i hi).2.mp hni⟩
      · rintro ⟨i, l, hl, hi, hni⟩
        obtain rfl : l = k := hl.unique hk
        exact ⟨i, hi, by rw [Nat.zero_add]; exact (h i hi).2.mpr hni⟩
    rw [← hnone, ← hs.2, or_iff_right heven]
    cases Matches.expandEach? (m.expand? u) path 0 k <;> cases rs <;> simp

variable (L) in
theorem agrees_all (hm : Held bs a m) :
    (∀ (n : Node) (depth : Nat) (u : Template), Template.compile L bs depth n = .ok u →
      ∀ path : List Nat, path.length = depth → InReach a (names n) path →
        Agrees (m.expand? u path) (Written a n path) (Uneven a n path)) ∧
    ∀ (ns : List Node) (depth : Nat) (us : List Template),
      Template.compileItems L bs depth ns = .ok us → ∀ path : List Nat, path.length = depth →
        InReach a (namesOfItems ns) path →
          AgreesItems (m.expandItems? us path) (WrittenItems a ns path)
            (UnevenItems a ns path) := by
  refine itemInduction ?absent ?leaf ?form ?nil ?repeated ?plain
  case absent =>
    intro depth u h
    simp [Template.compile, Compiled.fail] at h
  case leaf => exact fun t depth u h path hlen hreach => agrees_leaf hm h hlen hreach
  case form =>
    intro ns ih depth u h path hlen hreach
    obtain ⟨us, hus, rfl⟩ := template_form h
    rw [names] at hreach
    obtain ⟨hsome, hnone⟩ := ih depth us hus path hlen hreach
    refine ⟨fun n => ?_, ?_⟩
    · simp only [Matches.expand?, Option.bind_eq_bind, Option.bind_eq_some_iff, hsome, Written]
      constructor
      · rintro ⟨children, hchildren, hn⟩
        exact ⟨children, (Option.some.inj hn).symm, hchildren⟩
      · rintro ⟨children, rfl, hchildren⟩
        exact ⟨children, hchildren, rfl⟩
    · simp only [Matches.expand?, Uneven, ← hnone]
      cases m.expandItems? us path <;> simp
  case nil =>
    intro depth us h path _ _
    rw [templateItems_nil h]
    exact ⟨fun ns => by simp [Matches.expandItems?, WrittenItems, eq_comm],
      by simp [Matches.expandItems?, UnevenItems]⟩
  case repeated =>
    intro n q ns hq ihn ihns depth us h path hlen hreach
    obtain ⟨u, x, vs, hu, hx, hvs, rfl⟩ := templateItems_repeated hq h
    rw [namesOfItems_repeated hq] at hreach
    have hleft : InReach a (names n) path := fun x hx => hreach x (List.mem_append_left _ hx)
    have hright := ihns depth vs hvs path hlen fun x hx => hreach x (List.mem_append_right _ hx)
    obtain ⟨hmem, hcount⟩ := countAt_driver hm hlen hu hx hleft
    simp only [AgreesItems, writtenItems_repeated hq, unevenItems_repeated hq]
    rw [expandItems_repeated]
    generalize (m.counts.find? (key x path)).getD 0 = k at hcount
    split_ifs with hsame
    · have hk : Repeats a path n k := ⟨⟨x, hmem, hcount⟩, (sameCounts_iff hm hu hleft k).mp hsame⟩
      refine agrees_even hk (fun i hi => ?_) hright
      exact ihn _ u hu _ (by simp [hlen]) (hleft.inside hk hi)
    · -- Some variable was matched a different number of times than the one that decides.
      have huneven : ∃ y ∈ names n, ∃ j, CountAt a path y j ∧ j ≠ k := by
        by_contra hall
        refine hsame ((sameCounts_iff hm hu hleft k).mpr fun y hy j hj => ?_)
        by_contra hne
        exact hall ⟨y, hy, j, hj, hne⟩
      obtain ⟨y, hy, j, hj, hne⟩ := huneven
      refine ⟨fun r => ?_, ?_⟩
      · simp only [false_iff]
        rintro ⟨repetitions, others, -, hrep, -⟩
        exact hne ((hrep.2 y hy j hj).trans (hrep.2 x hmem k hcount).symm)
      · simp only [true_iff]
        exact Or.inl ⟨y, hy, x, hmem, j, k, hj, hcount, hne⟩
  case plain =>
    intro n ns hns ihn ihns depth us h path hlen hreach
    obtain ⟨u, vs, hu, hvs, rfl⟩ := templateItems_plain hns h
    rw [namesOfItems_plain hns] at hreach
    have hleft := ihn depth u hu path hlen fun x hx => hreach x (List.mem_append_left _ hx)
    have hright := ihns depth vs hvs path hlen fun x hx => hreach x (List.mem_append_right _ hx)
    simp only [AgreesItems, writtenItems_plain hns, unevenItems_plain hns]
    rw [Matches.expandItems?_plain (template_ne_repeated hu)]
    exact agrees_cons hleft hright

end Templates

end Reference

end LittleLisp
