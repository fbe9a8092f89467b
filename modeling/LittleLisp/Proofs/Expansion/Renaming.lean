/-
# Names of variables

The variables of a clause can be renamed: a clause with other names for its variables, in the
pattern and in the template, is accepted too. It is replaced by the same trees as long as the keys
of the tables tell the new names apart as they tell the old ones. They do so if no name starts with
another one and a `#`, but not always: `y#0` and `y` are different names, and yet the key of the
first one is also the key of the second one in its first repetition.

The proof follows both clauses at once. Tables that say the same about corresponding names are
filled and read in step. The variable that decides how often an item is repeated need not be
the corresponding one, but all that an ellipsis repeats must have been matched equally often
anyway.

Key definitions: `Renaming`, `Renaming.node`, `Renaming.Fits`, `Renaming.KeepsKeys`,
`Renaming.Apart`, `Renaming.Mirrors`.
Key theorems: `Renaming.Fits.keepsKeys`, `Renaming.pattern_all`, `Renaming.template_all`,
`Renaming.renamed_clause_expands_alike`.
-/
import Mathlib.Data.Option.Defs
import LittleLisp.Proofs.Expansion

namespace LittleLisp

open Matches (key)
open Reference

/-- Some names and the new names for them. -/
structure Renaming where
  old : List Text
  new : Text → Text

namespace Renaming

variable (R : Renaming)

/-! ### Renaming in trees -/

/-- The token with its new name, if it is an identifier that has one. -/
def token (t : Token) : Token :=
  if t.type = .identifier ∧ t.text ∈ R.old then
    { t with text := R.new t.text, value := .undefined (R.new t.text) }
  else t

mutual

/-- The tree with the new names. -/
def node : Node → Node
  | .absent => .absent
  | .leaf t => .leaf (R.token t)
  | .form ns => .form (items ns)

/-- The items of a list with the new names; ellipses that mark a repetition are no names. -/
def items : List Node → List Node
  | [] => []
  | [n] => [node n]
  | n :: m :: ns =>
    if m.isEllipsis then node n :: m :: items ns else node n :: items (m :: ns)

end

/-- The names are the variables of the pattern `ps` of a clause, and new names for them are all
different, and none of them is empty, `_`, the ellipsis, a name that matches only itself, or free in
the template. -/
structure Fits (literals : List Text) (ps : List Node) (template : Node) : Prop where
  old_eq : R.old = varsOfItems literals ps
  injective : ∀ x ∈ R.old, ∀ y ∈ R.old, R.new x = R.new y → x = y
  ne_nil : ∀ x ∈ R.old, R.new x ≠ []
  ne_underscore : ∀ x ∈ R.old, R.new x ≠ underscore
  ne_ellipsis : ∀ x ∈ R.old, R.new x ≠ ellipsis
  not_literal : ∀ x ∈ R.old, R.new x ∉ literals
  not_free : ∀ x ∈ R.old, ∀ y ∈ names template, y ∉ R.old → R.new x ≠ y

/-- The keys of the tables tell the new names apart as they tell the old ones. -/
def KeepsKeys : Prop :=
  ∀ x ∈ R.old, ∀ y ∈ R.old, ∀ p q, key (R.new x) p = key (R.new y) q ↔ key x p = key y q

variable {R} {literals : List Text} {ps : List Node} {template : Node}

theorem Fits.isVariable (h : R.Fits literals ps template) {x : Text} (hx : x ∈ R.old) :
    IsVariable literals x := by
  rw [h.old_eq] at hx
  simpa using (List.mem_filter.mp hx).2

/-- Names none of which starts with another one and a `#`. -/
def Apart (xs : List Text) : Prop := ∀ x ∈ xs, ∀ y ∈ xs, ¬ x ++ [Text.sharp] <+: y

instance (xs : List Text) : Decidable (Apart xs) :=
  inferInstanceAs (Decidable (∀ x ∈ xs, ∀ y ∈ xs, ¬ x ++ [Text.sharp] <+: y))

/-- What comes after a name in a key starts with `#`, so the longer one of two names with the same
key is the other one with a `#` after it. -/
theorem eq_of_append_eq {x y s t : Text} (hs : SharpFirst s) (h : x ++ s = y ++ t)
    (hxy : ¬ x ++ [Text.sharp] <+: y) (hle : x.length ≤ y.length) : x = y := by
  obtain ⟨a, rfl⟩ : x <+: y :=
    List.prefix_of_prefix_length_le (h ▸ List.prefix_append x s) (List.prefix_append y t) hle
  rw [List.append_assoc] at h
  obtain rfl : s = a ++ t := List.append_cancel_left h
  cases a with
  | nil => rw [List.append_nil]
  | cons c a =>
    obtain ⟨u, hu⟩ : ∃ u, c :: a ++ t = Text.sharp :: u := hs.resolve_left (by simp)
    obtain rfl : c = Text.sharp := (List.cons.inj hu).1
    exact absurd ⟨a, by simp⟩ hxy

theorem key_inj_of_apart {xs : List Text} (hxs : Apart xs) {x y : Text} (hx : x ∈ xs) (hy : y ∈ xs)
    {p q : List Nat} (h : key x p = key y q) : x = y ∧ p = q := by
  rw [key_eq, key_eq] at h
  have hxy : x = y := by
    rcases Nat.le_total x.length y.length with hle | hle
    · exact eq_of_append_eq (sharpFirst_pathText p) h (hxs x hx y hy) hle
    · exact (eq_of_append_eq (sharpFirst_pathText q) h.symm (hxs y hy x hx) hle).symm
  subst hxy
  exact ⟨rfl, pathText_inj (List.append_cancel_left h)⟩

theorem Fits.keepsKeys (h : R.Fits literals ps template) (hold : Apart R.old)
    (hnew : Apart (R.old.map R.new)) : R.KeepsKeys := by
  intro x hx y hy p q
  constructor
  · intro hkey
    obtain ⟨hxy, rfl⟩ :=
      key_inj_of_apart hnew (List.mem_map_of_mem hx) (List.mem_map_of_mem hy) hkey
    rw [h.injective x hx y hy hxy]
  · intro hkey
    obtain ⟨rfl, rfl⟩ := key_inj_of_apart hold hx hy hkey
    rfl

theorem token_old {t : Token} (ht : t.type = .identifier) (hx : t.text ∈ R.old) :
    R.token t = { t with text := R.new t.text, value := .undefined (R.new t.text) } :=
  if_pos ⟨ht, hx⟩

theorem token_other {t : Token} (h : t.type = .identifier → t.text ∉ R.old) : R.token t = t :=
  if_neg fun ⟨ht, hx⟩ => h ht hx

theorem items_repeated {n m : Node} (hm : m.isEllipsis = true) (ns : List Node) :
    R.items (n :: m :: ns) = R.node n :: m :: R.items ns := by
  simp [items, hm]

theorem items_plain {ns : List Node} (hns : beginsWithEllipsis ns = false) (n : Node) :
    R.items (n :: ns) = R.node n :: R.items ns := by
  cases ns with
  | nil => simp [items]
  | cons m ns => simp [items, show m.isEllipsis = false from hns]

/-- No name becomes an ellipsis. -/
theorem isEllipsis_node (hR : ∀ x ∈ R.old, R.new x ≠ ellipsis) {n : Node}
    (hn : n.isEllipsis = false) : (R.node n).isEllipsis = false := by
  cases n with
  | absent => rw [node]; rfl
  | form ns => rw [node]; rfl
  | leaf t =>
    rw [node]
    by_cases hx : t.type = .identifier ∧ t.text ∈ R.old
    · rw [token_old hx.1 hx.2]
      simp [Node.isEllipsis, Node.identifier?, hx.1, hR _ hx.2]
    · rwa [token_other fun ht hmem => hx ⟨ht, hmem⟩]

theorem items_cons (n : Node) (ns : List Node) : ∃ rest, R.items (n :: ns) = R.node n :: rest := by
  cases ns with
  | nil => exact ⟨[], by rw [items]⟩
  | cons m ns =>
    rw [items]
    split_ifs
    · exact ⟨_, rfl⟩
    · exact ⟨_, rfl⟩

theorem beginsWithEllipsis_items (hR : ∀ x ∈ R.old, R.new x ≠ ellipsis) {ns : List Node}
    (hns : beginsWithEllipsis ns = false) : beginsWithEllipsis (R.items ns) = false := by
  cases ns with
  | nil => rw [items]; rfl
  | cons n ns =>
    obtain ⟨rest, hrest⟩ := R.items_cons n ns
    rw [hrest]
    exact isEllipsis_node hR hns

/-! ### Tables in step -/

section Tables

variable (R) in
/-- Two tables say the same about corresponding names. -/
structure Mirrors (m m' : Matches) : Prop where
  nodes : ∀ x ∈ R.old, ∀ p, m'.nodes.find? (key (R.new x) p) = m.nodes.find? (key x p)
  counts : ∀ x ∈ R.old, ∀ p, m'.counts.find? (key (R.new x) p) = m.counts.find? (key x p)

theorem mirrors_empty : R.Mirrors .empty .empty := ⟨fun _ _ _ => rfl, fun _ _ _ => rfl⟩

/-- Entries of corresponding names are made in step. -/
theorem find?_insert_keys {α : Type} (hkeys : R.KeepsKeys) {b b' : Bindings α}
    (h : ∀ y ∈ R.old, ∀ q, b'.find? (key (R.new y) q) = b.find? (key y q)) {x : Text}
    (hx : x ∈ R.old) (p : List Nat) (a : α) :
    ∀ y ∈ R.old, ∀ q, (b'.insert (key (R.new x) p) a).find? (key (R.new y) q) =
      (b.insert (key x p) a).find? (key y q) := by
  intro y hy q
  by_cases hkey : key y q = key x p
  · rw [hkey, (hkeys y hy x hx q p).mpr hkey, Bindings.find?_insert_self,
      Bindings.find?_insert_self]
  · have hkey' : key (R.new y) q ≠ key (R.new x) p := fun h => hkey ((hkeys y hy x hx q p).mp h)
    rw [Bindings.find?_insert_of_ne hkey, Bindings.find?_insert_of_ne hkey', h y hy q]

variable (R) in
/-- Two patterns that fill tables in step. -/
structure PatternAlike (p p' : Pattern) : Prop where
  unify? : ∀ {m m' : Matches}, R.Mirrors m m' → ∀ path n,
    Option.Rel R.Mirrors (Matches.unify? p m path n) (Matches.unify? p' m' path n)
  count : ∀ {m m' : Matches}, R.Mirrors m m' → ∀ path k,
    R.Mirrors (m.count path k p) (m'.count path k p')

variable (R) in
/-- Two items of patterns that fill tables in step, with an ellipsis after both or none. -/
inductive ItemAlike : Pattern → Pattern → Prop where
  | plain {p p' : Pattern} (h : R.PatternAlike p p') (hp : ∀ q, p ≠ .repeated q)
      (hp' : ∀ q, p' ≠ .repeated q) : ItemAlike p p'
  | repeated {p p' : Pattern} (h : R.PatternAlike p p') : ItemAlike (.repeated p) (.repeated p')

variable {m m' : Matches}

theorem variable_alike (hkeys : R.KeepsKeys) {x : Text} (hx : x ∈ R.old) (depth : Nat) :
    R.PatternAlike (.variable x depth) (.variable (R.new x) depth) where
  unify? hm path n := by
    rw [Matches.unify?, Matches.unify?]
    exact .some ⟨find?_insert_keys hkeys hm.nodes hx path n, hm.counts⟩
  count hm path k := by
    rw [Matches.count, Matches.count]
    exact ⟨hm.nodes, find?_insert_keys hkeys hm.counts hx path k⟩

theorem unifyEach_alike {p p' : Pattern} (h : R.PatternAlike p p') (path : List Nat) :
    ∀ (ns : List Node) (i : Nat) {m m' : Matches}, R.Mirrors m m' →
      Option.Rel R.Mirrors (Matches.unifyEach? (Matches.unify? p) path i ns m)
        (Matches.unifyEach? (Matches.unify? p') path i ns m')
  | [], _, _, _, hm => .some hm
  | n :: ns, i, m, m', hm => by
    have hn := h.unify? hm (path ++ [i]) n
    unfold Matches.unifyEach?
    generalize Matches.unify? p m (path ++ [i]) n = r at hn ⊢
    generalize Matches.unify? p' m' (path ++ [i]) n = r' at hn ⊢
    cases hn with
    | none => exact .none
    | some hm => exact unifyEach_alike h path ns (i + 1) hm

theorem unifyItems_alike {ps ps' : List Pattern} (h : List.Forall₂ R.ItemAlike ps ps') :
    ∀ {m m' : Matches}, R.Mirrors m m' → ∀ (path : List Nat) (ns : List Node),
      Option.Rel R.Mirrors (Matches.unifyItems? ps m path ns)
        (Matches.unifyItems? ps' m' path ns) := by
  induction h with
  | nil =>
    intro m m' hm path ns
    rw [Matches.unifyItems?, Matches.unifyItems?]
    split_ifs
    · exact .some hm
    · exact .none
  | @cons p p' ps ps' hp hps ih =>
    intro m m' hm path ns
    cases hp with
    | plain hp hplain hplain' =>
      cases ns with
      | nil =>
        rw [Matches.unifyItems?_plain_nil hplain, Matches.unifyItems?_plain_nil hplain']
        exact .none
      | cons n ns =>
        have hn := hp.unify? hm path n
        rw [Matches.unifyItems?_plain hplain, Matches.unifyItems?_plain hplain']
        generalize Matches.unify? p m path n = r at hn ⊢
        generalize Matches.unify? p' m' path n = r' at hn ⊢
        cases hn with
        | none => exact .none
        | some hm => exact ih hm path ns
    | @repeated p p' hp =>
      rw [Matches.unifyItems?, Matches.unifyItems?, ← hps.length_eq]
      split_ifs
      · exact .none
      · have heach := unifyEach_alike hp path (ns.take (ns.length - ps.length)) 0 hm
        dsimp only
        generalize Matches.unifyEach? (Matches.unify? p) path 0 _ m = r at heach ⊢
        generalize Matches.unifyEach? (Matches.unify? p') path 0 _ m' = r' at heach ⊢
        cases heach with
        | none => exact .none
        | some hm => exact ih (hp.count hm path _) path _

theorem countItems_alike {ps ps' : List Pattern} (h : List.Forall₂ R.ItemAlike ps ps') :
    ∀ {m m' : Matches}, R.Mirrors m m' → ∀ (path : List Nat) (k : Nat),
      R.Mirrors (m.countItems path k ps) (m'.countItems path k ps') := by
  induction h with
  | nil => exact fun hm _ _ => hm
  | cons hp _ ih =>
    intro m m' hm path k
    rw [Matches.countItems, Matches.countItems]
    cases hp with
    | plain hp _ _ => exact ih (hp.count hm path k) path k
    | repeated hp =>
      rw [Matches.count, Matches.count]
      exact ih (hp.count hm path k) path k

theorem list_alike {ps ps' : List Pattern} (h : List.Forall₂ R.ItemAlike ps ps') :
    R.PatternAlike (.list ps) (.list ps') where
  unify? hm path n := by
    cases n with
    | form ns =>
      rw [Matches.unify?, Matches.unify?]
      exact unifyItems_alike h hm path ns
    | _ =>
      simp only [Matches.unify?]
      exact .none
  count hm path k := by
    rw [Matches.count, Matches.count]
    exact countItems_alike h hm path k

/-- A pattern without variables fills no table. -/
theorem closed_alike {p : Pattern} (hunify : ∀ path n,
      (∀ m, Matches.unify? p m path n = some m) ∨ ∀ m, Matches.unify? p m path n = none)
    (hcount : ∀ m path k, Matches.count m path k p = m) : R.PatternAlike p p where
  unify? hm path n := by
    rcases hunify path n with hsome | hnone
    · rw [hsome, hsome]
      exact .some hm
    · rw [hnone, hnone]
      exact .none
  count hm path k := by
    rw [hcount, hcount]
    exact hm

theorem wildcard_alike : R.PatternAlike .wildcard .wildcard :=
  closed_alike (fun _ _ => Or.inl fun _ => by rw [Matches.unify?]) fun _ _ _ => rfl

theorem literal_alike (name : Text) : R.PatternAlike (.literal name) (.literal name) := by
  refine closed_alike (fun path n => ?_) fun _ _ _ => rfl
  by_cases h : ∃ t, n.identifier? = some t ∧ t.text = name
  · obtain ⟨t, ht, hname⟩ := h
    exact Or.inl fun m => by simp [Matches.unify?, ht, hname]
  · refine Or.inr fun m => ?_
    cases ht : n.identifier? with
    | none => simp [Matches.unify?, ht]
    | some t => simp [Matches.unify?, ht, show t.text ≠ name from fun hname => h ⟨t, ht, hname⟩]

theorem constant_alike (t : Token) : R.PatternAlike (.constant t) (.constant t) := by
  refine closed_alike (fun path n => ?_) fun _ _ _ => rfl
  cases n with
  | leaf u =>
    by_cases h : u.type = t.type ∧ u.value.same t.value = true
    · exact Or.inl fun m => by simp [Matches.unify?, h]
    · exact Or.inr fun m => by simp only [Matches.unify?, if_neg h]
  | _ => exact Or.inr fun m => by simp only [Matches.unify?]

end Tables

/-! ### Patterns -/

section Patterns

variable {L : Legend} {bs cs bs' : Bindings Nat} {depth : Nat} {x : Text} {p : Pattern}

variable (R) in
/-- Corresponding names are declared with the same depths, and no others are declared. -/
structure Declared (bs cs : Bindings Nat) : Prop where
  same : ∀ x ∈ R.old, cs.find? (R.new x) = bs.find? x
  old : ∀ y, y ∉ R.old → bs.find? y = none
  new : ∀ y, (∀ x ∈ R.old, R.new x ≠ y) → cs.find? y = none

theorem declared_nil : R.Declared [] [] := ⟨fun _ _ => rfl, fun _ _ => rfl, fun _ _ => rfl⟩

theorem Declared.insert (h : R.Declared bs cs)
    (hinj : ∀ x ∈ R.old, ∀ y ∈ R.old, R.new x = R.new y → x = y) (hx : x ∈ R.old) (depth : Nat) :
    R.Declared (bs.insert x depth) (cs.insert (R.new x) depth) where
  same y hy := by
    by_cases hyx : y = x
    · rw [hyx, Bindings.find?_insert_self, Bindings.find?_insert_self]
    · have hne : R.new y ≠ R.new x := fun heq => hyx (hinj y hy x hx heq)
      rw [Bindings.find?_insert_of_ne hyx, Bindings.find?_insert_of_ne hne, h.same y hy]
  old y hy := by
    have hyx : y ≠ x := fun heq => hy (heq ▸ hx)
    rw [Bindings.find?_insert_of_ne hyx, h.old y hy]
  new y hy := by
    rw [Bindings.find?_insert_of_ne (hy x hx).symm, h.new y hy]

variable (R) in
/-- What a compiled pattern and the declarations after it correspond to. -/
def Compiles (x' : Compiled (Pattern × Bindings Nat)) (p : Pattern) (bs : Bindings Nat) : Prop :=
  ∃ p' cs, x' = .ok (p', cs) ∧ R.Declared bs cs ∧ (R.KeepsKeys → R.PatternAlike p p')

theorem leaf_compiles (hR : R.Fits literals ps template) {t : Token}
    (hvars : ∀ x ∈ vars literals (.leaf t), x ∈ R.old) (hd : R.Declared bs cs)
    (h : Pattern.compile L literals depth (.leaf t) bs = .ok (p, bs')) :
    R.Compiles (Pattern.compile L literals depth (R.node (.leaf t)) cs) p bs' := by
  rw [node]
  rcases compile_leaf h with ⟨ht, rfl, rfl⟩ | ⟨ht, hu, rfl, rfl⟩ | ⟨ht, hu, hl, rfl, rfl⟩ |
    ⟨ht, hx, hnew, rfl, rfl⟩
  · rw [token_other fun h => absurd h ht]
    exact ⟨_, cs, by rw [Pattern.compile, if_pos ht], hd, fun _ => constant_alike t⟩
  · rw [token_other fun _ hmem => (hR.isVariable hmem).1 hu]
    exact ⟨_, cs, by simp [Pattern.compile, ht, hu], hd, fun _ => wildcard_alike⟩
  · rw [token_other fun _ hmem => (hR.isVariable hmem).2 hl]
    exact ⟨_, cs, by simp [Pattern.compile, ht, hu, hl], hd, fun _ => literal_alike t.text⟩
  · have hmem : t.text ∈ R.old := hvars _ (by simp [vars_leaf_variable ht hx])
    have hfresh : cs.find? (R.new t.text) = none := by rw [hd.same _ hmem, hnew]
    rw [token_old ht hmem]
    refine ⟨.variable (R.new t.text) depth, cs.insert (R.new t.text) depth, ?_,
      hd.insert hR.injective hmem depth, fun hkeys => variable_alike hkeys hmem depth⟩
    simp [Pattern.compile, ht, hR.ne_underscore _ hmem, hR.not_literal _ hmem, hfresh]

variable (R) in
/-- The same for the items of a list. -/
def CompilesItems (x' : Compiled (List Pattern × Bindings Nat)) (qs : List Pattern)
    (bs : Bindings Nat) : Prop :=
  ∃ qs' cs, x' = .ok (qs', cs) ∧ R.Declared bs cs ∧
    (R.KeepsKeys → List.Forall₂ R.ItemAlike qs qs')

theorem compileItems_repeated_ok {n m : Node} {ns whole : List Node} {p : Pattern}
    {qs : List Pattern} (hm : m.isEllipsis = true)
    (hp : Pattern.compile L literals (depth + 1) n bs = .ok (p, cs))
    (hqs : Pattern.compileItems L literals depth whole true ns cs = .ok (qs, bs')) :
    Pattern.compileItems L literals depth whole false (n :: m :: ns) bs =
      .ok (.repeated p :: qs, bs') := by
  rw [Pattern.compileItems, if_pos hm, if_neg Bool.false_ne_true]
  simp only [bind, Except.bind, hp, hqs]
  rfl

theorem compileItems_plain_ok {repeats : Bool} {n : Node} {ns whole : List Node} {p : Pattern}
    {qs : List Pattern} (hns : beginsWithEllipsis ns = false)
    (hp : Pattern.compile L literals depth n bs = .ok (p, cs))
    (hqs : Pattern.compileItems L literals depth whole repeats ns cs = .ok (qs, bs')) :
    Pattern.compileItems L literals depth whole repeats (n :: ns) bs = .ok (p :: qs, bs') := by
  cases ns with
  | nil =>
    obtain ⟨rfl, rfl⟩ := compileItems_nil hqs
    rw [Pattern.compileItems]
    simp only [bind, Except.bind, hp]
    rfl
  | cons m ns =>
    rw [Pattern.compileItems, if_neg (by simpa [beginsWithEllipsis] using hns)]
    simp only [bind, Except.bind, hp, hqs]
    rfl

variable (L) in
/-- A pattern with the new names compiles too, and fills tables in step. -/
theorem pattern_all (hR : R.Fits literals ps template) :
    (∀ (n : Node), (∀ x ∈ vars literals n, x ∈ R.old) → ∀ (depth : Nat) (bs cs bs' : Bindings Nat)
      (p : Pattern), R.Declared bs cs → Pattern.compile L literals depth n bs = .ok (p, bs') →
        R.Compiles (Pattern.compile L literals depth (R.node n) cs) p bs') ∧
    ∀ (ns : List Node), (∀ x ∈ varsOfItems literals ns, x ∈ R.old) → ∀ (depth : Nat)
      (whole whole' : List Node) (repeats : Bool) (bs cs bs' : Bindings Nat) (qs : List Pattern),
        R.Declared bs cs →
          Pattern.compileItems L literals depth whole repeats ns bs = .ok (qs, bs') →
            R.CompilesItems (Pattern.compileItems L literals depth whole' repeats (R.items ns) cs)
              qs bs' := by
  refine itemInduction ?absent ?leaf ?form ?nil ?repeated ?plain
  case absent =>
    intro _ depth bs cs bs' p _ h
    simp [Pattern.compile, Compiled.fail] at h
  case leaf => exact fun t hvars depth bs cs bs' p hd h => leaf_compiles hR hvars hd h
  case form =>
    intro ns ih hvars depth bs cs bs' p hd h
    obtain ⟨qs, hqs, rfl⟩ := compile_form h
    rw [vars_form] at hvars
    obtain ⟨qs', cs', hqs', hd', halike⟩ := ih hvars _ _ (R.items ns) _ _ _ _ _ hd hqs
    refine ⟨.list qs', cs', ?_, hd', fun hkeys => list_alike (halike hkeys)⟩
    rw [node, Pattern.compile, hqs']
    rfl
  case nil =>
    intro _ depth whole whole' repeats bs cs bs' qs hd h
    obtain ⟨rfl, rfl⟩ := compileItems_nil h
    exact ⟨[], cs, by rw [items, Pattern.compileItems], hd, fun _ => .nil⟩
  case repeated =>
    intro n m ns hm ihn ihns hvars depth whole whole' repeats bs cs bs' qs hd h
    obtain ⟨rfl, p, qs, ds, hp, hqs, rfl⟩ := compileItems_repeated hm h
    rw [varsOfItems_repeated hm, List.forall_mem_append] at hvars
    obtain ⟨p', ds', hp', hd₁, hpa⟩ := ihn hvars.1 _ _ _ _ _ hd hp
    obtain ⟨qs', cs', hqs', hd₂, hqa⟩ := ihns hvars.2 _ _ whole' _ _ _ _ _ hd₁ hqs
    refine ⟨.repeated p' :: qs', cs', ?_, hd₂,
      fun hkeys => .cons (.repeated (hpa hkeys)) (hqa hkeys)⟩
    rw [items_repeated hm]
    exact compileItems_repeated_ok hm hp' hqs'
  case plain =>
    intro n ns hns ihn ihns hvars depth whole whole' repeats bs cs bs' qs hd h
    obtain ⟨p, qs, ds, hp, hqs, rfl⟩ := compileItems_plain hns h
    rw [varsOfItems_plain hns, List.forall_mem_append] at hvars
    obtain ⟨p', ds', hp', hd₁, hpa⟩ := ihn hvars.1 _ _ _ _ _ hd hp
    obtain ⟨qs', cs', hqs', hd₂, hqa⟩ := ihns hvars.2 _ _ whole' _ _ _ _ _ hd₁ hqs
    have hitem (hkeys : R.KeepsKeys) : R.ItemAlike p p' :=
      .plain (hpa hkeys) (compile_ne_repeated hp) (compile_ne_repeated hp')
    refine ⟨p' :: qs', cs', ?_, hd₂, fun hkeys => .cons (hitem hkeys) (hqa hkeys)⟩
    rw [items_plain hns]
    exact compileItems_plain_ok (beginsWithEllipsis_items hR.ne_ellipsis hns) hp' hqs'

end Patterns

/-! ### Templates -/

section Templates

variable {L : Legend} {bs cs : Bindings Nat} {depth : Nat} {m m' : Matches} {path : List Nat}

mutual

/-- The variable that decides about a repetition was itself matched that often, if all were. -/
theorem count_driver {k : Nat} {x : Text} : ∀ {u : Template}, m.sameCounts path k u = true →
    u.driver? (path.length + 1) = some x → m.counts.find? (key x path) = some k
  | .leaf _, _, hx => by simp [Template.driver?] at hx
  | .variable name d, h, hx => by
    unfold Template.driver? at hx
    split_ifs at hx with hd
    rw [Matches.sameCounts, if_pos (Nat.lt_of_succ_le hd.1), beq_iff_eq] at h
    rw [← Option.some.inj hx, h]
  | .list us, h, hx => by
    rw [Matches.sameCounts] at h
    rw [Template.driver?] at hx
    exact count_driverOfItems h hx
  | .repeated _ u, h, hx => by
    rw [Matches.sameCounts] at h
    rw [Template.driver?] at hx
    exact count_driver h hx

theorem count_driverOfItems {k : Nat} {x : Text} : ∀ {us : List Template},
    m.sameCountsItems path k us = true →
      Template.driverOfItems? (path.length + 1) us = some x → m.counts.find? (key x path) = some k
  | [], _, hx => by simp [Template.driverOfItems?] at hx
  | u :: us, h, hx => by
    rw [Matches.sameCountsItems, Bool.and_eq_true] at h
    unfold Template.driverOfItems? at hx
    cases hu : u.driver? (path.length + 1) with
    | none => exact count_driverOfItems h.2 (by simpa [hu] using hx)
    | some y =>
      rw [hu] at hx
      exact count_driver h.1 (hu.trans hx)

end

variable (R) in
/-- Two templates `depth` ellipses deep that are written alike from tables that say the same. -/
structure TemplateAlike (depth : Nat) (u u' : Template) : Prop where
  driver : ∀ k, (u.driver? k).isSome = true → (u'.driver? k).isSome = true
  counts : ∀ {m m' : Matches}, R.Mirrors m m' → ∀ path k,
    m'.sameCounts path k u' = m.sameCounts path k u
  expand : ∀ {m m' : Matches}, R.Mirrors m m' → ∀ path, path.length = depth →
    m'.expand? u' path = m.expand? u path

variable (R) in
/-- Two items of templates that are written alike, with an ellipsis after both or none. -/
inductive TemplateItemAlike (depth : Nat) : Template → Template → Prop where
  | plain {u u' : Template} (h : R.TemplateAlike depth u u') (hu : ∀ x v, u ≠ .repeated x v)
      (hu' : ∀ x v, u' ≠ .repeated x v) : TemplateItemAlike depth u u'
  | repeated {x x' : Text} {u u' : Template} (h : R.TemplateAlike (depth + 1) u u')
      (hx : u.driver? (depth + 1) = some x) (hx' : u'.driver? (depth + 1) = some x') :
      TemplateItemAlike depth (.repeated x u) (.repeated x' u')

theorem TemplateItemAlike.driver {u u' : Template} (h : R.TemplateItemAlike depth u u') (k : Nat) :
    (u.driver? k).isSome = true → (u'.driver? k).isSome = true := by
  cases h with
  | plain h _ _ => exact h.driver k
  | repeated h _ _ =>
    rw [Template.driver?, Template.driver?]
    exact h.driver k

theorem TemplateItemAlike.counts {u u' : Template} (h : R.TemplateItemAlike depth u u')
    (hm : R.Mirrors m m') (path : List Nat) (k : Nat) :
    m'.sameCounts path k u' = m.sameCounts path k u := by
  cases h with
  | plain h _ _ => exact h.counts hm path k
  | repeated h _ _ =>
    rw [Matches.sameCounts, Matches.sameCounts]
    exact h.counts hm path k

theorem driverOfItems_alike {us us' : List Template}
    (h : List.Forall₂ (R.TemplateItemAlike depth) us us') (k : Nat) :
    (Template.driverOfItems? k us).isSome = true →
      (Template.driverOfItems? k us').isSome = true := by
  induction h with
  | nil => exact id
  | @cons u u' us us' hu _ ih =>
    unfold Template.driverOfItems?
    intro h
    cases hu' : u'.driver? k with
    | some x => simp
    | none =>
      cases hx : u.driver? k with
      | some x =>
        have hsome := hu.driver k (by rw [hx]; rfl)
        rw [hu'] at hsome
        simp at hsome
      | none => exact ih (by simpa [hx] using h)

theorem sameCountsItems_alike {us us' : List Template}
    (h : List.Forall₂ (R.TemplateItemAlike depth) us us') (hm : R.Mirrors m m') (path : List Nat)
    (k : Nat) : m'.sameCountsItems path k us' = m.sameCountsItems path k us := by
  induction h with
  | nil => rfl
  | cons hu _ ih => rw [Matches.sameCountsItems, Matches.sameCountsItems, hu.counts hm, ih]

theorem expandEach_congr {f g : List Nat → Option Node}
    (h : ∀ i, f (path ++ [i]) = g (path ++ [i])) :
    ∀ k i, Matches.expandEach? f path i k = Matches.expandEach? g path i k
  | 0, _ => rfl
  | k + 1, i => by rw [Matches.expandEach?, Matches.expandEach?, h i, expandEach_congr h k]

/-- However the variable is chosen that decides about a repetition, the item is repeated equally
often, or not at all. -/
theorem repeated_alike {x x' : Text} {u u' : Template} (h : R.TemplateAlike (depth + 1) u u')
    (hx : u.driver? (depth + 1) = some x) (hx' : u'.driver? (depth + 1) = some x')
    (hm : R.Mirrors m m') (hpath : path.length = depth) {us us' : List Template}
    (hrest : m'.expandItems? us' path = m.expandItems? us path) :
    m'.expandItems? (.repeated x' u' :: us') path = m.expandItems? (.repeated x u :: us) path := by
  rw [← hpath] at hx hx'
  have hn {k : Nat} (hk : m.sameCounts path k u = true) : m.counts.find? (key x path) = some k :=
    count_driver hk hx
  have hn' {k : Nat} (hk : m.sameCounts path k u = true) :
      m'.counts.find? (key x' path) = some k := by
    rw [← h.counts hm] at hk
    exact count_driver hk hx'
  have heach : ∀ i, m'.expand? u' (path ++ [i]) = m.expand? u (path ++ [i]) :=
    fun i => h.expand hm (path ++ [i]) (by rw [List.length_append, hpath]; rfl)
  rw [expandItems_repeated, expandItems_repeated, h.counts hm]
  by_cases heven : ∃ k, m.sameCounts path k u = true
  · obtain ⟨k, hk⟩ := heven
    rw [hn hk, hn' hk, Option.getD_some, if_pos hk, if_pos hk, expandEach_congr heach, hrest]
  · rw [if_neg fun hk => heven ⟨_, hk⟩, if_neg fun hk => heven ⟨_, hk⟩]

theorem expandItems_alike {us us' : List Template}
    (h : List.Forall₂ (R.TemplateItemAlike depth) us us') (hm : R.Mirrors m m')
    (hpath : path.length = depth) : m'.expandItems? us' path = m.expandItems? us path := by
  induction h with
  | nil => rfl
  | cons hu _ ih =>
    cases hu with
    | plain hu hplain hplain' =>
      rw [Matches.expandItems?_plain hplain, Matches.expandItems?_plain hplain',
        hu.expand hm path hpath, ih]
    | repeated hu hx hx' => exact repeated_alike hu hx hx' hm hpath ih

theorem templateList_alike {us us' : List Template}
    (h : List.Forall₂ (R.TemplateItemAlike depth) us us') :
    R.TemplateAlike depth (.list us) (.list us') where
  driver k := by
    rw [Template.driver?, Template.driver?]
    exact driverOfItems_alike h k
  counts hm path k := by
    rw [Matches.sameCounts, Matches.sameCounts]
    exact sameCountsItems_alike h hm path k
  expand hm path hpath := by
    rw [Matches.expand?, Matches.expand?, expandItems_alike h hm hpath]

theorem templateLeaf_alike (t : Token) : R.TemplateAlike depth (.leaf t) (.leaf t) where
  driver _ h := h
  counts _ _ _ := by rw [Matches.sameCounts, Matches.sameCounts]
  expand _ _ _ := by rw [Matches.expand?, Matches.expand?]

theorem templateVariable_alike {x : Text} (hx : x ∈ R.old) (hne : R.new x ≠ []) (d : Nat) :
    R.TemplateAlike depth (.variable x d) (.variable (R.new x) d) where
  driver k h := by
    unfold Template.driver? at h ⊢
    split_ifs at h with hk
    · rw [if_pos ⟨hk.1, hne⟩]
      rfl
    · simp at h
  counts hm path k := by rw [Matches.sameCounts, Matches.sameCounts, hm.counts x hx]
  expand hm path _ := by rw [Matches.expand?, Matches.expand?, hm.nodes x hx]

theorem templateItems_repeated_ok {n m : Node} {ns : List Node} {u : Template} {us : List Template}
    {x : Text} (hm : m.isEllipsis = true) (hu : Template.compile L bs (depth + 1) n = .ok u)
    (hx : u.driver? (depth + 1) = some x) (hus : Template.compileItems L bs depth ns = .ok us) :
    Template.compileItems L bs depth (n :: m :: ns) = .ok (.repeated x u :: us) := by
  rw [Template.compileItems, if_pos hm]
  simp only [bind, Except.bind, hu, hx, hus]
  rfl

theorem templateItems_plain_ok {n : Node} {ns : List Node} {u : Template} {us : List Template}
    (hns : beginsWithEllipsis ns = false) (hu : Template.compile L bs depth n = .ok u)
    (hus : Template.compileItems L bs depth ns = .ok us) :
    Template.compileItems L bs depth (n :: ns) = .ok (u :: us) := by
  cases ns with
  | nil =>
    obtain rfl := templateItems_nil hus
    rw [Template.compileItems]
    simp only [bind, Except.bind, hu]
    rfl
  | cons m ns =>
    rw [Template.compileItems, if_neg (by simpa [beginsWithEllipsis] using hns)]
    simp only [bind, Except.bind, hu, hus]
    rfl

variable (L) in
/-- A template with the new names compiles too, and is written alike. -/
theorem template_all (hR : R.Fits literals ps template) (hd : R.Declared bs cs)
    (hbound : ∀ x ∈ R.old, bs.find? x ≠ none) :
    (∀ (n : Node), (∀ x ∈ R.old, ∀ y ∈ names n, y ∉ R.old → R.new x ≠ y) → ∀ (depth : Nat)
      (u : Template), Template.compile L bs depth n = .ok u →
        ∃ u', Template.compile L cs depth (R.node n) = .ok u' ∧ R.TemplateAlike depth u u') ∧
    ∀ (ns : List Node), (∀ x ∈ R.old, ∀ y ∈ namesOfItems ns, y ∉ R.old → R.new x ≠ y) →
      ∀ (depth : Nat) (us : List Template), Template.compileItems L bs depth ns = .ok us →
        ∃ us', Template.compileItems L cs depth (R.items ns) = .ok us' ∧
          List.Forall₂ (R.TemplateItemAlike depth) us us' := by
  refine itemInduction ?absent ?leaf ?form ?nil ?repeated ?plain
  case absent =>
    intro _ depth u h
    simp [Template.compile, Compiled.fail] at h
  case leaf =>
    intro t hfree depth u h
    rw [node]
    rcases template_leaf h with ⟨rfl, hnone⟩ | ⟨d, ht, hx, hle, rfl⟩
    · have hother (ht : t.type = .identifier) : t.text ∉ R.old :=
        fun hmem => hbound _ hmem (hnone ht)
      refine ⟨.leaf t, ?_, templateLeaf_alike t⟩
      rw [token_other hother, Template.compile]
      split_ifs with ht
      · rfl
      · have hid : t.type = .identifier := not_not.mp ht
        have hundeclared : cs.find? t.text = none :=
          hd.new _ fun x hx => hfree x hx _ (by simp [names, hid]) (hother hid)
        rw [hundeclared]
    · have hmem : t.text ∈ R.old := by
        by_contra hnot
        rw [hd.old _ hnot] at hx
        simp at hx
      refine ⟨.variable (R.new t.text) d, ?_, templateVariable_alike hmem (hR.ne_nil _ hmem) d⟩
      rw [token_old ht hmem, Template.compile, if_neg (not_not.mpr ht)]
      dsimp only
      rw [hd.same _ hmem, hx]
      exact if_neg (Nat.not_lt.mpr hle)
  case form =>
    intro ns ih hfree depth u h
    obtain ⟨us, hus, rfl⟩ := template_form h
    obtain ⟨us', hus', halike⟩ := ih (by simpa [names] using hfree) depth us hus
    refine ⟨.list us', ?_, templateList_alike halike⟩
    rw [node, Template.compile, hus']
    rfl
  case nil =>
    intro _ depth us h
    rw [templateItems_nil h]
    exact ⟨[], by rw [items, Template.compileItems], .nil⟩
  case repeated =>
    intro n m ns hm ihn ihns hfree depth us h
    obtain ⟨u, x, us, hu, hx, hus, rfl⟩ := templateItems_repeated hm h
    rw [namesOfItems_repeated hm] at hfree
    obtain ⟨u', hu', halike⟩ :=
      ihn (fun x hx y hy => hfree x hx y (List.mem_append_left _ hy)) _ _ hu
    obtain ⟨us', hus', hitems⟩ :=
      ihns (fun x hx y hy => hfree x hx y (List.mem_append_right _ hy)) _ _ hus
    obtain ⟨x', hx'⟩ := Option.isSome_iff_exists.mp (halike.driver (depth + 1) (by rw [hx]; rfl))
    refine ⟨.repeated x' u' :: us', ?_, .cons (.repeated halike hx hx') hitems⟩
    rw [items_repeated hm]
    exact templateItems_repeated_ok hm hu' hx' hus'
  case plain =>
    intro n ns hns ihn ihns hfree depth us h
    obtain ⟨u, us, hu, hus, rfl⟩ := templateItems_plain hns h
    rw [namesOfItems_plain hns] at hfree
    obtain ⟨u', hu', halike⟩ :=
      ihn (fun x hx y hy => hfree x hx y (List.mem_append_left _ hy)) _ _ hu
    obtain ⟨us', hus', hitems⟩ :=
      ihns (fun x hx y hy => hfree x hx y (List.mem_append_right _ hy)) _ _ hus
    have hitem : R.TemplateItemAlike depth u u' :=
      .plain halike (template_ne_repeated hu) (template_ne_repeated hu')
    refine ⟨u' :: us', ?_, .cons hitem hitems⟩
    rw [items_plain hns]
    exact templateItems_plain_ok (beginsWithEllipsis_items hR.ne_ellipsis hns) hu' hus'

end Templates

/-! ### Clauses -/

section Clauses

variable {L : Legend}

theorem outcome_cons (operands : List Node) (c : Clause) (cs : List Clause) :
    outcome operands (c :: cs) =
      match Matches.unifyItems? c.operands .empty [] operands with
      | none => outcome operands cs
      | some m =>
        match m.expand? c.template [] with
        | some n => .tree n
        | none => .uneven := by
  cases hmatch : Matches.unifyItems? c.operands .empty [] operands with
  | none => simp [outcome, Transformation.select?, hmatch]
  | some m =>
    cases hexpand : m.expand? c.template [] with
    | none => simp [outcome, Transformation.select?, hmatch, hexpand]
    | some n => simp [outcome, Transformation.select?, hmatch, hexpand]

/-- The clause with the new names is accepted, and if keys tell the names apart alike, it decides as
the old one does, whichever clauses come after it. -/
theorem clause_alike {pattern : List Node} (hR : R.Fits literals pattern template) {c : Clause}
    (h : Clause.compile L literals (.form [.form pattern, template]) = .ok c) :
    ∃ c', Clause.compile L literals (.form [.form (R.items pattern), R.node template]) = .ok c' ∧
      (R.KeepsKeys → ∀ operands cs, outcome operands (c' :: cs) = outcome operands (c :: cs)) := by
  obtain ⟨head, patterns, template, ps, bs, u, heq, hps, hu, rfl⟩ := Clause.compile_eq_ok h
  obtain ⟨rfl, rfl⟩ : pattern = head :: patterns ∧ _ = template := by simpa using heq
  have hvars : ∀ x ∈ varsOfItems literals (head :: patterns), x ∈ R.old := by simp [hR.old_eq]
  obtain ⟨ps', cs, hps', hd, hpatterns⟩ := (pattern_all L hR).2 _ hvars _ _
    (R.items (head :: patterns)) _ _ _ _ _ declared_nil hps
  have hbound : ∀ x ∈ R.old, bs.find? x ≠ none := by
    rw [hR.old_eq]
    exact (declares_compileItems hps).bound
  obtain ⟨u', hu', htemplate⟩ := (template_all L hR hd hbound).1 _ hR.not_free _ _ hu
  refine ⟨⟨ps'.tail, u'⟩, ?_, fun hkeys operands cs => ?_⟩
  · obtain ⟨rest, hrest⟩ := R.items_cons head patterns
    rw [hrest] at hps' ⊢
    rw [Clause.compile_pair]
    simp only [bind, Except.bind, hps', hu']
    rfl
  · have htail : List.Forall₂ R.ItemAlike ps.tail ps'.tail := by
      cases hpatterns hkeys with
      | nil => exact .nil
      | cons _ hrest => exact hrest
    have hmatch := unifyItems_alike htail mirrors_empty [] operands
    rw [outcome_cons, outcome_cons]
    dsimp only
    generalize Matches.unifyItems? ps.tail .empty [] operands = r at hmatch ⊢
    generalize Matches.unifyItems? ps'.tail .empty [] operands = r' at hmatch ⊢
    cases hmatch with
    | none => rfl
    | some hm =>
      dsimp only
      rw [htemplate.expand hm [] rfl]

/-- A clause that decides alike can take the place of another among any clauses. -/
theorem compileAll_replace {form form' : Node} (after : List Node)
    (hform : ∀ c, Clause.compile L literals form = .ok c →
      ∃ c', Clause.compile L literals form' = .ok c' ∧
        (R.KeepsKeys → ∀ operands cs, outcome operands (c' :: cs) = outcome operands (c :: cs))) :
    ∀ (before : List Node) {cs : List Clause},
      Clause.compileAll L literals (before ++ form :: after) = .ok cs →
        ∃ cs', Clause.compileAll L literals (before ++ form' :: after) = .ok cs' ∧
          (R.KeepsKeys → ∀ operands, outcome operands cs' = outcome operands cs)
  | [], cs, h => by
    rw [List.nil_append, Clause.compileAll] at h
    obtain ⟨c, hc, h⟩ := except_bind_eq_ok.mp h
    obtain ⟨ds, hds, h⟩ := except_bind_eq_ok.mp h
    cases h
    obtain ⟨c', hc', halike⟩ := hform c hc
    refine ⟨c' :: ds, ?_, fun hkeys operands => halike hkeys operands ds⟩
    simp only [List.nil_append, Clause.compileAll, bind, Except.bind, hc', hds]
    rfl
  | other :: before, cs, h => by
    rw [List.cons_append, Clause.compileAll] at h
    obtain ⟨c, hc, h⟩ := except_bind_eq_ok.mp h
    obtain ⟨ds, hds, h⟩ := except_bind_eq_ok.mp h
    cases h
    obtain ⟨ds', hds', halike⟩ := compileAll_replace after hform before hds
    refine ⟨c :: ds', ?_, fun hkeys operands => ?_⟩
    · simp only [List.cons_append, Clause.compileAll, bind, Except.bind, hc, hds']
      rfl
    · rw [outcome_cons, outcome_cons, halike hkeys operands]

end Clauses

/-! ### User-defined forms -/

section Forms

variable {L : Legend} {keyword : Text} {head lits : Node}

theorem compile_iff {clauses : List Node} {x : Transformation} :
    Transformation.compile L keyword (.form (head :: lits :: clauses)) = .ok x ↔
      (head.identifier?.any fun t => t.text == Text.ofString "syntax-rules") = true ∧
      ∃ ns names cs, lits = .form ns ∧ Transformation.literalNames L ns = .ok names ∧
        Clause.compileAll L (keyword :: names) clauses = .ok cs ∧ x = ⟨keyword, cs⟩ := by
  rw [Transformation.compile_eq]
  dsimp only
  constructor
  · intro h
    split_ifs at h with hhead
    · refine ⟨hhead, ?_⟩
      split at h
      · rename_i ns
        obtain ⟨names, hnames, h⟩ := except_bind_eq_ok.mp h
        obtain ⟨cs, hcs, h⟩ := except_bind_eq_ok.mp h
        cases h
        exact ⟨ns, names, cs, rfl, hnames, hcs, rfl⟩
      · obtain ⟨t, -, h⟩ := except_bind_eq_ok.mp h
        simp [Compiled.fail] at h
    · obtain ⟨t, -, h⟩ := except_bind_eq_ok.mp h
      simp [Compiled.fail] at h
  · rintro ⟨hhead, ns, names, cs, rfl, hnames, hcs, rfl⟩
    rw [if_pos hhead]
    simp only [bind, Except.bind, hnames, hcs]
    rfl

/-- **Names of variables do not matter, as far as keys tell them apart.** Take a form that is
accepted, and new names for the variables of one of its clauses: all different, and none of them
empty, `_`, the ellipsis, a literal, the keyword or free in the template. With the new names in the
pattern and the template of that clause the form is accepted too. If moreover the keys of the tables
tell the new names apart as they tell the old ones, it is replaced by the same tree as before,
whatever its operands are. -/
theorem renamed_clause_expands_alike (before after : List Node) {pattern : List Node}
    {x : Transformation}
    (h : Transformation.compile L keyword
      (.form (head :: lits :: (before ++ .form [.form pattern, template] :: after))) = .ok x)
    (hR : R.Fits (literalsOf keyword (.form [head, lits])) pattern template) :
    ∃ x', Transformation.compile L keyword
        (.form (head :: lits ::
          (before ++ .form [.form (R.items pattern), R.node template] :: after))) = .ok x' ∧
      (R.KeepsKeys → ∀ L' operands, x'.expand L' operands = x.expand L' operands) := by
  have hbounded := Transformation.bounded_of_compile h
  obtain ⟨hhead, ns, names, cs, rfl, hnames, hcs, rfl⟩ := compile_iff.mp h
  have hliterals : literalsOf keyword (.form [head, .form ns]) = keyword :: names := by
    rw [literalNames_eq hnames]
    rfl
  rw [hliterals] at hR
  obtain ⟨cs', hcs', halike⟩ :=
    compileAll_replace after (fun c hc => clause_alike hR hc) before hcs
  have hx' := compile_iff.mpr ⟨hhead, ns, names, cs', rfl, hnames, hcs', rfl⟩
  refine ⟨⟨keyword, cs'⟩, hx', fun hkeys L' operands => ?_⟩
  rw [expand_eq_outcome hbounded, expand_eq_outcome (Transformation.bounded_of_compile hx'),
    halike hkeys operands]

/-- The names `a` and `b` of the clause `((_ (a b ...) ...) (list (list a b ...) ...))` can be
swapped. -/
theorem renamed_clause_expands_alike_swap :
    let word (text : Text) : Node := .leaf ⟨.identifier, .unknown, text, .undefined text⟩
    let clause (a b : Text) : Node :=
      .form [.form [word "_", .form [word a, word b, word "..."], word "..."],
        .form [word "list", .form [word "list", word a, word b, word "..."], word "..."]]
    let spec (a b : Text) : Node := .form [word "syntax-rules", .form [], clause a b]
    let L : Legend := ⟨fun _ => [], fun _ => [], fun _ => .ok []⟩
    ∃ x x', Transformation.compile L "groups" (spec "a" "b") = .ok x ∧
      Transformation.compile L "groups" (spec "b" "a") = .ok x' ∧
        ∀ operands, x'.expand L operands = x.expand L operands := by
  intro word clause spec L
  let swap : Renaming := ⟨["a", "b"], fun x => if x = Text.ofString "a" then "b" else "a"⟩
  have hok : (Transformation.compile L "groups" (spec "a" "b")).isOk = true := by decide +kernel
  cases h : Transformation.compile L "groups" (spec "a" "b") with
  | error alarm => simp [h, Except.isOk, Except.toBool] at hok
  | ok x =>
    have hfits : swap.Fits ["groups"]
        [word "_", .form [word "a", word "b", word "..."], word "..."]
        (.form [word "list", .form [word "list", word "a", word "b", word "..."], word "..."]) := by
      constructor <;> decide +kernel
    obtain ⟨x', hx', halike⟩ := renamed_clause_expands_alike [] [] h hfits
    exact ⟨x, x', rfl, hx', halike (hfits.keepsKeys (by decide +kernel) (by decide +kernel)) L⟩

/-- The key of `y#0` is a key of `y` too. With this name for `x` in the clause
`((_ x y ...) (list x y ...))` the operands `p q` become `(list q q)`. -/
example :
    let word (text : Text) : Node := .leaf ⟨.identifier, .unknown, text, .undefined text⟩
    let spec (x : Text) : Node := .form [word "syntax-rules", .form [],
      .form [.form [word "_", word x, word "y", word "..."],
        .form [word "list", word x, word "y", word "..."]]]
    let L : Legend := ⟨fun _ => [], fun _ => [], fun _ => .ok []⟩
    let written (x : Text) : Option Text :=
      (Transformation.compile L "row" (spec x)).toOption.bind fun f =>
        ((f.expand L [word "p", word "q"]).text L).toOption
    written "x" = some "(list p q)" ∧ written "y#0" = some "(list q q)" := by
  decide +kernel

end Forms

end Renaming

end LittleLisp
