/-
# Printing maps

A map is printed with its entries in the order of their texts, so that nothing is seen of the order
in which they stand. The entries are visited in that order, and reordering them, in any map at any
nesting of lists and maps, stands for another order of visits (`Value.Reordered`). The text of the
value is the same after it, and if it cannot be printed, then it cannot be printed afterwards; only
which of several failures is met first depends on the order (`Value.PrintsAlike`). Entries that
print alike need no care, as exchanging equal texts changes nothing.

The maps that `hash-map` and `assoc` give are a case of this. If no key comes twice, the entries of
a new map are its pairs, in the order in which they were given; so `hash-map` with the pairs in
another order, and calls of `assoc` that lead to the same entries, give maps that print alike. What
is no key makes the call fail in every order.

Key definitions: `Value.Reordered`, `Value.PrintsAlike`, `Maps.Gives`, `Maps.Chain`,
`Maps.Orderless`.
Key theorems: `Text.sort_perm`, `Value.Reordered.printsAlike`, `Entries.insertPairs_of_distinct`,
`Maps.printing_ignores_order`.
-/
import LittleLisp.Proofs.Maps

namespace LittleLisp

variable {σ : Type}

/-! ### Texts in order -/

namespace Text

theorem le_cons (a b : UInt8) (s t : Text) :
    le (a :: s) (b :: t) = true ↔ a < b ∨ a = b ∧ le s t = true := by
  simp [le]

theorem le_total : ∀ s t : Text, (le s t || le t s) = true
  | [], _ => by simp [le]
  | _ :: _, [] => by simp [le]
  | a :: s, b :: t => by
    rw [Bool.or_eq_true, le_cons, le_cons]
    by_cases hab : a = b
    · have hrest := le_total s t
      rw [Bool.or_eq_true] at hrest
      exact hrest.imp (fun h => Or.inr ⟨hab, h⟩) (fun h => Or.inr ⟨hab.symm, h⟩)
    · exact (UInt8.lt_or_lt_of_ne hab).imp Or.inl Or.inl

theorem le_trans : ∀ s t u : Text, le s t = true → le t u = true → le s u = true
  | [], _, _, _, _ => by simp [le]
  | _ :: _, [], _, h, _ => by simp [le] at h
  | _ :: _, _ :: _, [], _, h => by simp [le] at h
  | a :: s, b :: t, c :: u, h, h' => by
    rw [le_cons] at h h' ⊢
    obtain hab | ⟨rfl, hst⟩ := h
    · obtain hbc | ⟨rfl, -⟩ := h'
      · exact Or.inl (UInt8.lt_trans hab hbc)
      · exact Or.inl hab
    · obtain hac | ⟨rfl, htu⟩ := h'
      · exact Or.inl hac
      · exact Or.inr ⟨rfl, le_trans s t u hst htu⟩

theorem le_antisymm : ∀ s t : Text, le s t = true → le t s = true → s = t
  | [], [], _, _ => rfl
  | [], _ :: _, _, h => by simp [le] at h
  | _ :: _, [], h, _ => by simp [le] at h
  | a :: s, b :: t, h, h' => by
    rw [le_cons] at h h'
    obtain hab | ⟨rfl, hst⟩ := h
    · obtain hba | ⟨rfl, -⟩ := h'
      · exact absurd hba (UInt8.lt_asymm hab)
      · exact absurd hab (UInt8.lt_irrefl _)
    · obtain haa | ⟨-, hts⟩ := h'
      · exact absurd haa (UInt8.lt_irrefl _)
      · rw [le_antisymm s t hst hts]

/-- Texts that come in another order are the same texts in order. -/
theorem sort_perm {ts us : List Text} (h : ts.Perm us) : sort ts = sort us := by
  have hts : (sort ts).Pairwise fun s t => le s t = true :=
    List.pairwise_mergeSort le_trans le_total ts
  have hus : (sort us).Pairwise fun s t => le s t = true :=
    List.pairwise_mergeSort le_trans le_total us
  have hperm : (sort ts).Perm (sort us) :=
    calc (sort ts).Perm ts := List.mergeSort_perm ts le
      _ |>.Perm us := h
      _ |>.Perm (sort us) := (List.mergeSort_perm us le).symm
  exact hperm.eq_of_pairwise (fun s t _ _ => le_antisymm s t) hts hus

end Text

/-! ### Reordered values -/

namespace Value

mutual

/-- The second value is the first one with the entries of each map, at any nesting of lists and
maps, in the same or some other order. Stamps do not count. -/
inductive Reordered : Value → Value → Prop where
  | same (v : Value) : Reordered v v
  | list {stamp stamp' : Nat} {vs ws : List Value} (h : ReorderedItems vs ws) :
      Reordered (.list stamp vs) (.list stamp' ws)
  | map {stamp stamp' : Nat} {es fs gs : List (Atom × Value)} (h : ReorderedEntries es fs)
      (hperm : fs.Perm gs) : Reordered (.map stamp es) (.map stamp' gs)

/-- The items of a list are reordered in their places. -/
inductive ReorderedItems : List Value → List Value → Prop where
  | nil : ReorderedItems [] []
  | cons {v w : Value} {vs ws : List Value} (h : Reordered v w) (hrest : ReorderedItems vs ws) :
      ReorderedItems (v :: vs) (w :: ws)

/-- The values of a map are reordered under their keys. -/
inductive ReorderedEntries : List (Atom × Value) → List (Atom × Value) → Prop where
  | nil : ReorderedEntries [] []
  | cons (k : Atom) {v w : Value} {es fs : List (Atom × Value)} (h : Reordered v w)
      (hrest : ReorderedEntries es fs) : ReorderedEntries ((k, v) :: es) ((k, w) :: fs)

end

theorem ReorderedEntries.refl : ∀ es : Entries, ReorderedEntries es es
  | [] => .nil
  | (k, v) :: es => .cons k (.same v) (.refl es)

/-- Two attempts to print with the same outcome: related texts, or a failure of each. -/
inductive Alike {α : Type} (R : α → α → Prop) : Except Text α → Except Text α → Prop where
  | ok {a b : α} (h : R a b) : Alike R (.ok a) (.ok b)
  | error (m m' : Text) : Alike R (.error m) (.error m')

/-- Two values with the same text, or without any. -/
def PrintsAlike (L : Legend) (v w : Value) : Prop := Alike Eq (v.text L) (w.text L)

section

variable {α β : Type} {R : α → α → Prop} {S : β → β → Prop} {x y z : Except Text α}

theorem Alike.bind {f g : α → Except Text β} (h : Alike R x y)
    (hfg : ∀ a b, R a b → Alike S (f a) (g b)) : Alike S (x >>= f) (y >>= g) := by
  cases h with
  | ok h => exact hfg _ _ h
  | error m m' => exact .error m m'

theorem Alike.trans (hR : ∀ a b c, R a b → R b c → R a c) (h : Alike R x y) (h' : Alike R y z) :
    Alike R x z := by
  cases h with
  | ok h =>
    cases h' with
    | ok h' => exact .ok (hR _ _ _ h h')
  | error m m' =>
    cases h' with
    | error _ m'' => exact .error m m''

theorem Alike.refl (hR : ∀ a, R a a) : ∀ x : Except Text α, Alike R x x
  | .ok a => .ok (hR a)
  | .error m => .error m m

end

variable {L : Legend}

/-- Entries in another order have their texts in another order. -/
theorem alike_entryTexts {es fs : Entries} (h : es.Perm fs) :
    Alike List.Perm (entryTexts L es) (entryTexts L fs) := by
  induction h with
  | nil => exact .ok (.refl _)
  | cons e _ ih =>
    obtain ⟨k, v⟩ := e
    rw [entryTexts, entryTexts]
    refine Alike.bind (Alike.refl (R := Eq) (fun _ => rfl) (v.text L)) fun t u htu => ?_
    subst htu
    exact ih.bind fun ts us hts => .ok (hts.cons _)
  | swap e f es =>
    obtain ⟨k, v⟩ := e
    obtain ⟨k', w⟩ := f
    rw [entryTexts, entryTexts, entryTexts, entryTexts]
    cases hv : v.text L with
    | error m =>
      -- whichever value is met first, one of them fails
      cases hw : w.text L with
      | error m' => exact .error m' m
      | ok u => exact .error m m
    | ok t =>
      cases hw : w.text L with
      | error m' => exact .error m' m'
      | ok u =>
        cases hes : entryTexts L es with
        | error m => exact .error m m
        | ok ts => exact .ok (.swap _ _ _)
  | trans _ _ ih ih' => exact ih.trans (fun _ _ _ h h' => h.trans h') ih'

mutual

/-- **Printing does not see the order of the entries.** -/
theorem Reordered.printsAlike : ∀ {v w : Value}, v.Reordered w → PrintsAlike L v w
  | _, _, .same v => .refl (fun _ => rfl) (v.text L)
  | _, _, .list h => by
    rw [PrintsAlike, text, text]
    refine (ReorderedItems.alike h).bind fun ts us hts => ?_
    subst hts
    exact .ok rfl
  | _, _, .map h hperm => by
    rw [PrintsAlike, text, text]
    have hvalues := ReorderedEntries.alike h
    have horder := alike_entryTexts (L := L) hperm
    refine (hvalues.trans (fun _ _ _ h h' => h.trans h') horder).bind fun ts us hts => ?_
    have hsort : Text.sort ts = Text.sort us := Text.sort_perm hts
    rw [hsort]
    exact .ok rfl

theorem ReorderedItems.alike : ∀ {vs ws : List Value}, ReorderedItems vs ws →
    Alike Eq (itemTexts L vs) (itemTexts L ws)
  | _, _, .nil => .ok rfl
  | _, _, .cons h hrest => by
    rw [itemTexts, itemTexts]
    refine (Reordered.printsAlike h).bind fun t u htu => ?_
    subst htu
    refine (ReorderedItems.alike hrest).bind fun ts us hts => ?_
    subst hts
    exact .ok rfl

theorem ReorderedEntries.alike : ∀ {es fs : Entries}, ReorderedEntries es fs →
    Alike List.Perm (entryTexts L es) (entryTexts L fs)
  | _, _, .nil => .ok (.refl _)
  | _, _, .cons k h hrest => by
    rw [entryTexts, entryTexts]
    refine (Reordered.printsAlike h).bind fun t u htu => ?_
    subst htu
    exact (ReorderedEntries.alike hrest).bind fun ts us hts => .ok (hts.cons _)

end

end Value

/-! ### Entries without a key twice -/

namespace Entries

/-- No two pairs have equal keys. -/
def Distinct (ps : List (Atom × Value)) : Prop := ps.Pairwise fun p q => p.1.same q.1 = false

instance (ps : List (Atom × Value)) : Decidable (Distinct ps) :=
  inferInstanceAs (Decidable (ps.Pairwise fun p q => p.1.same q.1 = false))

theorem Distinct.perm {ps qs : List (Atom × Value)} (h : Distinct ps) (hperm : ps.Perm qs) :
    Distinct qs :=
  (hperm.pairwise_iff fun {p q} hpq => by rwa [Atom.same_comm]).mp h

/-- A key that equals no other is put at the end. -/
theorem insert_of_not_same {k : Atom} (v : Value) : ∀ {es : Entries},
    (∀ e ∈ es, k.same e.1 = false) → insert k v es = es ++ [(k, v)]
  | [], _ => rfl
  | (a, w) :: es, h => by
    rw [List.forall_mem_cons] at h
    have hne : ¬ k.same a = true := by rw [h.1]; simp
    rw [insert_cons, if_neg hne, insert_of_not_same v h.2, List.cons_append]

/-- Pairs with keys of their own are put behind the entries, in order. -/
theorem insertPairs_of_distinct : ∀ {ps es : List (Atom × Value)}, Distinct (es ++ ps) →
    insertPairs es ps = es ++ ps
  | [], es, _ => (List.append_nil es).symm
  | (k, v) :: ps, es, h => by
    have hmove : es ++ (k, v) :: ps = (es ++ [(k, v)]) ++ ps := by simp
    have hnew : ∀ e ∈ es, k.same e.1 = false := by
      intro e he
      rw [Atom.same_comm]
      exact (List.pairwise_append.mp h).2.2 e he (k, v) List.mem_cons_self
    calc insertPairs es ((k, v) :: ps) = insertPairs (insert k v es) ps := rfl
      _ = insertPairs (es ++ [(k, v)]) ps := by rw [insert_of_not_same v hnew]
      _ = (es ++ [(k, v)]) ++ ps := insertPairs_of_distinct (hmove ▸ h)
      _ = es ++ (k, v) :: ps := hmove.symm

end Entries

/-! ### Calls that build maps -/

namespace Maps

open Value (PrintsAlike)

variable {M : Machine σ}

/-- A call of a built-in function, in some store, gives a value. -/
def Gives (M : Machine σ) (b : Builtin) (args : List Value) (v : Value) : Prop :=
  ∃ (s t : Store σ) (ref : Nat) (f : Function), s.functions[ref]? = some f ∧ f.body = .builtin b ∧
    M.unbounded.call ref args s = .done v t

/-- Calls of `assoc`, each to add some pairs to what the one before gave. -/
inductive Chain (M : Machine σ) : Value → List (List (Atom × Value)) → Value → Prop where
  | last {m w : Value} {ps : List (Atom × Value)} (hps : ps ≠ [])
      (h : Gives M .assoc (m :: inTurn (keyed ps)) w) : Chain M m [ps] w
  | call {m m' w : Value} {ps : List (Atom × Value)} {batches : List (List (Atom × Value))}
      (hps : ps ≠ []) (h : Gives M .assoc (m :: inTurn (keyed ps)) m')
      (hrest : Chain M m' batches w) : Chain M m (ps :: batches) w

/-- What a call gives is a map with the entries that the function computes. -/
theorem Gives.map {b : Builtin} {args : List Value} {m : Value} {es : Entries}
    (h : Gives M b args m) (hb : ∀ L, b.apply L args = .ok (.map 0 es)) :
    ∃ stamp, m = .map stamp es := by
  obtain ⟨s, t, ref, f, hf, hbody, hcall⟩ := h
  obtain ⟨w, stamps, hcopy, hw⟩ := call_gives_copy hf hbody (hb (s.legend M.host))
  obtain rfl : w = m := by
    rw [hw] at hcall
    exact (Outcome.done.inj hcall).1
  cases hcopy with
  | plain => exact ⟨0, rfl⟩
  | map stamp es => exact ⟨stamp, rfl⟩

theorem apply_hashMap_keyed (L : Legend) (ps : List (Atom × Value)) :
    Builtin.hashMap.apply L (inTurn (keyed ps)) = .ok (.map 0 (Entries.insertPairs [] ps)) := by
  rw [apply_hashMap, withPairs_keyed]

theorem apply_assoc_keyed (L : Legend) {m : Value} {es : Entries} (h : m.entries? = some es)
    {ps : List (Atom × Value)} (hps : ps ≠ []) :
    Builtin.assoc.apply L (m :: inTurn (keyed ps)) = .ok (.map 0 (es.insertPairs ps)) := by
  rw [apply_assoc h (by simpa [keyed] using hps), withPairs_keyed]

/-- The entries of a new map with keys that differ are its pairs. -/
theorem Gives.hashMap {ps : List (Atom × Value)} {m : Value} (hps : Entries.Distinct ps)
    (h : Gives M .hashMap (inTurn (keyed ps)) m) : ∃ stamp, m = .map stamp ps := by
  have hentries : Entries.insertPairs [] ps = ps := Entries.insertPairs_of_distinct hps
  obtain ⟨stamp, hm⟩ := h.map fun L => apply_hashMap_keyed L ps
  exact ⟨stamp, hentries ▸ hm⟩

/-- A chain of calls leads to a map with all the pairs added in order. -/
theorem Chain.map {m w : Value} {batches : List (List (Atom × Value))} (h : Chain M m batches w) :
    ∀ {es : Entries}, m.entries? = some es →
      ∃ stamp, w = .map stamp (es.insertPairs batches.flatten) := by
  induction h with
  | @last m w ps hps h =>
    intro es hm
    obtain ⟨stamp, hw⟩ := h.map fun L => apply_assoc_keyed L hm hps
    exact ⟨stamp, by rw [hw, List.flatten_singleton]⟩
  | @call m m' w ps batches hps h _ ih =>
    intro es hm
    obtain ⟨stamp, rfl⟩ := h.map fun L => apply_assoc_keyed L hm hps
    obtain ⟨stamp', hw⟩ := ih rfl
    have hall : es.insertPairs (ps :: batches).flatten =
        (es.insertPairs ps).insertPairs batches.flatten := by
      rw [List.flatten_cons, Entries.insertPairs, List.foldl_append]
      rfl
    exact ⟨stamp', hall ▸ hw⟩

/-- Maps with the same entries print alike. -/
theorem printsAlike_of_perm (L : Legend) {stamp stamp' : Nat} {es fs : Entries} (h : es.Perm fs) :
    PrintsAlike L (.map stamp es) (.map stamp' fs) :=
  Value.Reordered.printsAlike (.map (.refl es) h)

/-- Calls that get keys and values in turn give a map. -/
theorem exists_done {s : Store σ} {ref : Nat} {f : Function} {b : Builtin} {args : List Value}
    {es : Entries} (hf : s.functions[ref]? = some f) (hbody : f.body = .builtin b)
    (hb : ∀ L, b.apply L args = .ok (.map 0 es)) :
    ∃ w t, M.unbounded.call ref args s = .done w t := by
  obtain ⟨w, stamps, -, hcall⟩ := call_gives_copy hf hbody (hb (s.legend M.host))
  exact ⟨w, _, hcall⟩

/-- A pair with a value that is no key makes a call fail for the first such value. -/
theorem rejected_hashMap (L : Legend) {ps : List (Value × Value)}
    (h : ∃ p ∈ ps, p.1.isKey = false) :
    ∃ p ∈ ps, p.1.isKey = false ∧ Rejected L p.1 (Builtin.hashMap.apply L (inTurn ps)) := by
  cases hfind : ps.find? fun p => !p.1.isKey with
  | none =>
    obtain ⟨p, hp, hkey⟩ := h
    have hnone := List.find?_eq_none.mp hfind p hp
    rw [hkey] at hnone
    exact absurd rfl hnone
  | some p =>
    have hkey : p.1.isKey = false := by simpa using List.find?_some hfind
    refine ⟨p, List.mem_of_find?_eq_some hfind, hkey, ?_⟩
    rw [apply_hashMap]
    exact rejected_withPairs _ hfind 0 []

/-- Nothing that prints a map, or builds one from pairs with keys that differ, sees an order. -/
structure Orderless (M : Machine σ) : Prop where
  /-- A value prints alike for every order of the entries of each map in it. -/
  visits : ∀ (L : Legend) (v w : Value), v.Reordered w → PrintsAlike L v w
  /-- Pairs with keys that differ make maps that print alike in every order. -/
  hashMap : ∀ (ps qs : List (Atom × Value)) (m m' : Value), Entries.Distinct ps → ps.Perm qs →
    Gives M .hashMap (inTurn (keyed ps)) m → Gives M .hashMap (inTurn (keyed qs)) m' →
    ∀ L : Legend, PrintsAlike L m m'
  /-- Calls of `assoc` that lead to the same entries make a map that prints alike. -/
  assoc : ∀ (ps : List (Atom × Value)) (start : Value) (es fs : Entries)
    (batches : List (List (Atom × Value))) (m m' : Value), Entries.Distinct ps →
    start.entries? = some es → Chain M start batches m → m.entries? = some fs → fs.Perm ps →
    Gives M .hashMap (inTurn (keyed ps)) m' → ∀ L : Legend, PrintsAlike L m m'
  /-- The entries that calls of `assoc` lead to: the pairs are added in order, behind the entries
  that there were if no key comes twice. -/
  entries : ∀ (start : Value) (es : Entries) (batches : List (List (Atom × Value))) (m : Value),
    start.entries? = some es → Chain M start batches m →
    m.entries? = some (es.insertPairs batches.flatten) ∧
      (Entries.Distinct (es ++ batches.flatten) → m.entries? = some (es ++ batches.flatten))
  /-- All these calls give a map, in every store. -/
  given : ∀ (s : Store σ) (ref : Nat) (f : Function) (ps : List (Atom × Value)),
    s.functions[ref]? = some f →
    (f.body = .builtin .hashMap → ∃ m t, M.unbounded.call ref (inTurn (keyed ps)) s = .done m t) ∧
    (f.body = .builtin .assoc → ps ≠ [] → ∀ (start : Value) (es : Entries),
      start.entries? = some es →
      ∃ m t, M.unbounded.call ref (start :: inTurn (keyed ps)) s = .done m t)
  /-- Pairs of which some have no key are refused in every order. -/
  refused : ∀ (L : Legend) (ps qs : List (Value × Value)), ps.Perm qs →
    (∃ p ∈ ps, p.1.isKey = false) →
    ∃ p ∈ ps, p.1.isKey = false ∧ Rejected L p.1 (Builtin.hashMap.apply L (inTurn qs))

/-- **Printing a map does not depend on the order of its entries**, at any nesting, and so the order
in which a map was built from its pairs cannot be told from its text. -/
theorem printing_ignores_order (M : Machine σ) : Orderless M := by
  constructor
  case visits =>
    intro L v w h
    exact h.printsAlike
  case hashMap =>
    intro ps qs m m' hdistinct hperm hm hm' L
    obtain ⟨stamp, rfl⟩ := hm.hashMap hdistinct
    obtain ⟨stamp', rfl⟩ := hm'.hashMap (hdistinct.perm hperm)
    exact printsAlike_of_perm L hperm
  case assoc =>
    intro ps start es fs batches m m' hdistinct hstart hchain hfs hperm hm' L
    obtain ⟨stamp, rfl⟩ := hchain.map hstart
    obtain rfl := Option.some.inj hfs
    obtain ⟨stamp', rfl⟩ := hm'.hashMap hdistinct
    exact printsAlike_of_perm L hperm
  case entries =>
    intro start es batches m hstart hchain
    obtain ⟨stamp, rfl⟩ := hchain.map hstart
    refine ⟨rfl, fun hdistinct => ?_⟩
    rw [Entries.insertPairs_of_distinct hdistinct]
    rfl
  case given =>
    intro s ref f ps hf
    refine ⟨fun hbody => ?_, fun hbody hps start es hstart => ?_⟩
    · exact exists_done hf hbody fun L => apply_hashMap_keyed L ps
    · exact exists_done hf hbody fun L => apply_assoc_keyed L hstart hps
  case refused =>
    intro L ps qs hperm ⟨p, hp, hkey⟩
    obtain ⟨q, hq, hqkey, hrejected⟩ := rejected_hashMap L ⟨p, hperm.mem_iff.mp hp, hkey⟩
    exact ⟨q, hperm.mem_iff.mpr hq, hqkey, hrejected⟩

/-- Two pairs in either order, both ways to build a map of them, and a list of the two maps. -/
theorem printing_ignores_order_of_two :
    let M := (Session.start .default .none ()).machine
    let p : Atom × Value := (.keyword ":a", .nil)
    let q : Atom × Value := (.keyword ":b", .list 0 [])
    ∃ stamp stamp' m, Gives M .hashMap (inTurn (keyed [p, q])) (.map stamp [p, q]) ∧
      Gives M .hashMap (inTurn (keyed [q, p])) (.map stamp' [q, p]) ∧ Chain M .nil [[q], [p]] m ∧
      ∀ L : Legend, PrintsAlike L (.map stamp [p, q]) (.map stamp' [q, p]) ∧
        PrintsAlike L m (.map stamp [p, q]) ∧
        PrintsAlike L (.list 0 [.map stamp [p, q]]) (.list 0 [.map stamp' [q, p]]) := by
  intro M p q
  have hlaws := printing_ignores_order M
  have hstandard := Store.standard_withGlobals "user" ()
  obtain ⟨new, f, -, hf, hnew⟩ := Store.body?_eq_some.mp (hstandard.builtins .hashMap)
  obtain ⟨add, g, -, hg, hadd⟩ := Store.body?_eq_some.mp (hstandard.builtins .assoc)
  have hdistinct : Entries.Distinct [p, q] := by decide
  have hperm : [p, q].Perm [q, p] := .swap _ _ _
  -- the calls
  obtain ⟨m, s, hm⟩ := (hlaws.given _ new f [p, q] hf).1 hnew
  obtain ⟨m', s', hm'⟩ := (hlaws.given _ new f [q, p] hf).1 hnew
  obtain ⟨w, t, hw⟩ := (hlaws.given _ add g [q] hg).2 hadd (by simp) .nil [] rfl
  have hgives : Gives M .hashMap (inTurn (keyed [p, q])) m := ⟨_, s, new, f, hf, hnew, hm⟩
  have hgives' : Gives M .hashMap (inTurn (keyed [q, p])) m' := ⟨_, s', new, f, hf, hnew, hm'⟩
  have hfirst : Gives M .assoc (.nil :: inTurn (keyed [q])) w := ⟨_, t, add, g, hg, hadd, hw⟩
  obtain ⟨hwq, -⟩ := hlaws.entries .nil [] [[q]] w rfl (.last (by simp) hfirst)
  obtain ⟨w', t', hw'⟩ := (hlaws.given _ add g [p] hg).2 hadd (by simp) w _ hwq
  have hsecond : Gives M .assoc (w :: inTurn (keyed [p])) w' := ⟨_, t', add, g, hg, hadd, hw'⟩
  have hchain : Chain M .nil [[q], [p]] w' := .call (by simp) hfirst (.last (by simp) hsecond)
  -- what they give
  obtain ⟨-, hentries⟩ := hlaws.entries .nil [] [[q], [p]] w' rfl hchain
  have hw'entries := hentries (hdistinct.perm hperm)
  have hsame := hlaws.hashMap [p, q] [q, p] m m' hdistinct hperm hgives hgives'
  have hassoc := hlaws.assoc [p, q] .nil [] [q, p] [[q], [p]] w' m hdistinct rfl hchain hw'entries
    hperm.symm hgives
  obtain ⟨stamp, rfl⟩ := hgives.hashMap hdistinct
  obtain ⟨stamp', rfl⟩ := hgives'.hashMap (hdistinct.perm hperm)
  refine ⟨stamp, stamp', w', hgives, hgives', hchain, fun L => ⟨hsame L, hassoc L, ?_⟩⟩
  exact hlaws.visits L _ _ (.list (.cons (.map (.refl [p, q]) hperm) .nil))

end Maps

end LittleLisp
