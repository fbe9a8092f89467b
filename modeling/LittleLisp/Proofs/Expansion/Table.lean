/-
# Tables of matches

The tables that matching fills are indexed by texts: a variable's name followed by the
repetition numbers, each after a `#`. As long as no name contains a `#`, different places
have different keys. So a tree of matches can be read off the tables, and filling in one
place leaves every other place alone.

Key definitions: `Reference.Sharpless`, `Reference.Stored`, `Reference.SameAt`,
`Reference.Frame`.
Key theorems: `Reference.key_inj`, `Reference.Stored.congr`, `Reference.stored_follow`.
-/
import LittleLisp.Proofs.Expansion.Reference

namespace LittleLisp

/-! ### Decimal notation -/

namespace Text

theorem ofChars_inj {cs ds : List Char} (h : ofChars cs = ofChars ds) : cs = ds := by
  have he : cs.utf8Encode = ds.utf8Encode := by
    simp only [List.utf8Encode]
    exact congrArg List.toByteArray h
  have hs : String.ofList cs = String.ofList ds := by
    rw [← String.toByteArray_inj]
    simpa using he
  simpa using congrArg String.toList hs

theorem ofNat_inj {i j : Nat} (h : ofNat i = ofNat j) : i = j := by
  have hd := congrArg (fun cs => Nat.ofDigitChars 10 cs 0) (ofChars_inj h)
  simpa using hd

/-- The byte of `#`. -/
def sharp : UInt8 := 35

theorem sharp_notMem_encode {c : Char} (h : c.isDigit = true) :
    sharp ∉ String.utf8EncodeChar c := by
  have hc : 48 ≤ c.toNat ∧ c.toNat ≤ 57 := by
    simpa [Char.isDigit, UInt32.le_iff_toNat_le] using h
  have hle : c.val.toNat ≤ 127 := Nat.le_trans hc.2 (by decide)
  simp only [String.utf8EncodeChar, hle, if_true, List.mem_singleton]
  intro he
  have hn := congrArg UInt8.toNat he
  simp only [sharp, UInt8.reduceToNat, UInt8.toNat_ofNat', Char.toNat_val] at hn
  omega

theorem sharp_notMem_ofNat (i : Nat) : sharp ∉ ofNat i := by
  intro h
  obtain ⟨c, hc, hb⟩ := List.mem_flatMap.mp h
  exact sharp_notMem_encode (Nat.isDigit_of_mem_toDigits (by decide) (by decide) hc) hb

end Text

namespace Reference

open Matches (key)

/-! ### Keys -/

/-- A name that contains no `#`. -/
def Sharpless (x : Text) : Prop := Text.sharp ∉ x

/-- A text that is empty or starts with `#`. -/
def SharpFirst (t : Text) : Prop := t = [] ∨ ∃ u, t = Text.sharp :: u

theorem append_sharp_inj : ∀ {x y s t : Text}, Sharpless x → Sharpless y → SharpFirst s →
    SharpFirst t → x ++ s = y ++ t → x = y ∧ s = t
  | [], [], _, _, _, _, _, _, h => ⟨rfl, h⟩
  | [], c :: y, s, t, _, hy, hs, _, h => by
    simp only [List.nil_append, List.cons_append] at h
    rcases hs with rfl | ⟨u, rfl⟩
    · simp at h
    · exact absurd (List.cons.inj h).1 fun hc => hy (by simp [hc])
  | c :: x, [], s, t, hx, _, _, ht, h => by
    simp only [List.nil_append, List.cons_append] at h
    rcases ht with rfl | ⟨u, rfl⟩
    · simp at h
    · exact absurd (List.cons.inj h).1 fun hc => hx (by simp [hc])
  | c :: x, d :: y, s, t, hx, hy, hs, ht, h => by
    obtain ⟨hcd, hrest⟩ := List.cons.inj h
    have hx : Sharpless x := fun hm => hx (List.mem_cons_of_mem _ hm)
    have hy : Sharpless y := fun hm => hy (List.mem_cons_of_mem _ hm)
    obtain ⟨hxy, hst⟩ := append_sharp_inj hx hy hs ht hrest
    exact ⟨by rw [hcd, hxy], hst⟩

/-- The repetition numbers of a key. -/
def pathText (path : List Nat) : Text := path.flatMap fun i => Text.sharp :: Text.ofNat i

theorem key_eq (x : Text) (path : List Nat) : key x path = x ++ pathText path := rfl

theorem sharpFirst_pathText : ∀ path : List Nat, SharpFirst (pathText path)
  | [] => Or.inl rfl
  | _ :: _ => Or.inr ⟨_, rfl⟩

theorem pathText_inj : ∀ {p q : List Nat}, pathText p = pathText q → p = q
  | [], [], _ => rfl
  | [], _ :: _, h => by simp [pathText] at h
  | _ :: _, [], h => by simp [pathText] at h
  | i :: p, j :: q, h => by
    have hrest : Text.ofNat i ++ pathText p = Text.ofNat j ++ pathText q := (List.cons.inj h).2
    obtain ⟨hij, hpq⟩ := append_sharp_inj (Text.sharp_notMem_ofNat i) (Text.sharp_notMem_ofNat j)
      (sharpFirst_pathText p) (sharpFirst_pathText q) hrest
    rw [Text.ofNat_inj hij, pathText_inj hpq]

/-- Names without `#` in different places have different keys. -/
theorem key_inj {x y : Text} {p q : List Nat} (hx : Sharpless x) (hy : Sharpless y)
    (h : key x p = key y q) : x = y ∧ p = q := by
  rw [key_eq, key_eq] at h
  obtain ⟨hxy, hpq⟩ :=
    append_sharp_inj hx hy (sharpFirst_pathText p) (sharpFirst_pathText q) h
  exact ⟨hxy, pathText_inj hpq⟩

/-! ### What the tables say about a variable -/

variable {m m' m'' : Matches} {x y : Text} {path : List Nat}

/-- Two tables say the same about a variable in a repetition. -/
structure SameAt (m m' : Matches) (x : Text) (path : List Nat) : Prop where
  nodes : m'.nodes.find? (key x path) = m.nodes.find? (key x path)
  counts : m'.counts.find? (key x path) = m.counts.find? (key x path)

theorem SameAt.refl (m : Matches) (x : Text) (path : List Nat) : SameAt m m x path := ⟨rfl, rfl⟩

theorem SameAt.trans (h : SameAt m m' x path) (h' : SameAt m' m'' x path) :
    SameAt m m'' x path := ⟨h'.nodes.trans h.nodes, h'.counts.trans h.counts⟩

/-- Going from one table to another touches nothing but the variables `xs` in the repetition `path`
and in those inside it. -/
def Frame (m m' : Matches) (xs : List Text) (path : List Nat) : Prop :=
  ∀ y q, Sharpless y → (y ∈ xs → ¬ path <+: q) → SameAt m m' y q

theorem Frame.refl (m : Matches) (xs : List Text) (path : List Nat) : Frame m m xs path :=
  fun _ _ _ _ => .refl _ _ _

theorem Frame.trans {xs : List Text} (h : Frame m m' xs path) (h' : Frame m' m'' xs path) :
    Frame m m'' xs path :=
  fun y q hy hq => (h y q hy hq).trans (h' y q hy hq)

theorem Frame.mono {xs ys : List Text} {p : List Nat} (h : Frame m m' xs path)
    (hxs : ∀ x ∈ xs, x ∈ ys) (hp : p <+: path) : Frame m m' ys p :=
  fun y q hy hq => h y q hy fun hx hpq => hq (hxs y hx) (hp.trans hpq)

/-- The tables hold a tree of matches of a variable in a repetition. -/
inductive Stored (m : Matches) (x : Text) : List Nat → MatchTree → Prop where
  | one {path : List Nat} {n : Node} (h : m.nodes.find? (key x path) = some n) :
      Stored m x path (.one n)
  | many {path : List Nat} {ts : List MatchTree}
      (hcount : m.counts.find? (key x path) = some ts.length)
      (h : ∀ i t, ts[i]? = some t → Stored m x (path ++ [i]) t) : Stored m x path (.many ts)

/-- Tables that say the same about a repetition and those inside it hold the same trees there. -/
theorem Stored.congr {t : MatchTree} (h : Stored m x path t)
    (hsame : ∀ q, path <+: q → SameAt m m' x q) : Stored m' x path t := by
  induction h with
  | one h => exact .one ((hsame _ (List.prefix_refl _)).nodes.trans h)
  | many hcount _ ih =>
    refine .many ((hsame _ (List.prefix_refl _)).counts.trans hcount) fun i t ht => ?_
    exact ih i t ht fun q hq => hsame q ((List.prefix_append _ _).trans hq)

/-- What lies outside the frame stays stored. -/
theorem Stored.frame {xs : List Text} {p : List Nat} {t : MatchTree} (h : Stored m x path t)
    (hframe : Frame m m' xs p) (hx : Sharpless x)
    (hout : x ∈ xs → ∀ q, path <+: q → ¬ p <+: q) : Stored m' x path t :=
  h.congr fun q hq => hframe x q hx fun hxs => hout hxs q hq

/-! ### Trees of even depth -/

/-- A tree of matches in which every match lies under the same number of repetitions. -/
inductive HasDepth : Nat → MatchTree → Prop where
  | one {n : Node} : HasDepth 0 (.one n)
  | many {k : Nat} {ts : List MatchTree} (h : ∀ t ∈ ts, HasDepth k t) : HasDepth (k + 1) (.many ts)

theorem HasDepth.eq_one {t : MatchTree} (h : HasDepth 0 t) : ∃ n, t = .one n := by
  cases h with
  | one => exact ⟨_, rfl⟩

theorem HasDepth.eq_many {k : Nat} {t : MatchTree} (h : HasDepth (k + 1) t) :
    ∃ ts, t = .many ts ∧ ∀ u ∈ ts, HasDepth k u := by
  cases h with
  | many h => exact ⟨_, rfl, h⟩

/-- Following repetition numbers inside the depth of a tree leads to what is stored there. -/
theorem stored_follow : ∀ {q : List Nat} {p : List Nat} {t u : MatchTree} {k : Nat},
    Stored m x p t → HasDepth (k + q.length) t → t.follow q = some u →
      Stored m x (p ++ q) u ∧ HasDepth k u
  | [], p, t, u, k, hs, hd, hu => by
    simp only [MatchTree.follow, Option.some.injEq] at hu
    subst hu
    rw [List.append_nil]
    exact ⟨hs, hd⟩
  | i :: q, p, t, u, k, hs, hd, hu => by
    obtain ⟨ts, rfl, hts⟩ := HasDepth.eq_many hd
    cases hs with
    | many hcount hs =>
      cases hi : ts[i]? with
      | none => simp [MatchTree.follow, hi] at hu
      | some v =>
        simp only [MatchTree.follow, hi] at hu
        have hrest := stored_follow (hs i v hi) (hts v (List.mem_of_getElem? hi)) hu
        rwa [List.append_assoc, List.singleton_append] at hrest

/-- Repetition numbers are followed one after the other. -/
theorem follow_append : ∀ {q : List Nat} {t u : MatchTree} {r : List Nat},
    t.follow q = some u → t.follow (q ++ r) = u.follow r
  | [], t, u, r, h => by
    simp only [MatchTree.follow, Option.some.injEq] at h
    rw [h, List.nil_append]
  | i :: q, t, u, r, h => by
    cases t with
    | one n =>
      simp only [MatchTree.follow, Option.some.injEq] at h
      subst h
      cases r <;> simp [MatchTree.follow]
    | many ts =>
      cases hi : ts[i]? with
      | none => simp [MatchTree.follow, hi] at h
      | some v =>
        simp only [MatchTree.follow, hi] at h
        simp only [List.cons_append, MatchTree.follow, hi]
        exact follow_append h

end Reference

end LittleLisp
