/-
# Maps

The built-in functions of maps obey the laws of finite maps, with `=` between the keys. What makes a
key address an entry is the equality of atoms, which is the equality of values on them: numbers are
equal if both stand for the same, so `0` and `-0` are one key, and what is no number equals nothing.

The laws speak of what the functions compute. What a call gives is a copy of that: a new list or
map may be told from all others by its stamp, which no function of maps looks at.

A value that is no atom is no key. The call is then refused by a fault that describes the value,
unless the value cannot be printed.

Key definitions: `Value.entries?`, `Value.Copy`, `Maps.Updated`, `Maps.Rejected`, `Maps.Lawful`.
Key theorems: `Number.beq_iff`, `Atom.same_trans`, `Entries.find?_insert_of_same`,
`Entries.find?_insert_of_not_same`, `Entries.length_insert`, `Maps.maps_obey_laws`.
-/
import Mathlib
import LittleLisp.Proofs.Prelude.Forms

namespace LittleLisp

variable {σ : Type}

/-! ### Equal keys -/

namespace Number

open Float.Model (UnpackedFloat)

/-- A number without the sign of a zero. -/
def unsignedZero : UnpackedFloat → UnpackedFloat
  | .zero _ => .zero .positive
  | x => x

theorem compare_eq_iff {x y : UnpackedFloat} :
    x.compare y = some .eq ↔ x ≠ .notANumber ∧ unsignedZero x = unsignedZero y := by
  cases x with
  | notANumber => simp [UnpackedFloat.compare]
  | infinity s =>
    cases y with
    | infinity t => cases s <;> cases t <;> simp [UnpackedFloat.compare, unsignedZero] <;> decide
    | _ => cases s <;> simp [UnpackedFloat.compare, unsignedZero]
  | zero s =>
    cases y with
    | finite t n e hn => cases t <;> simp [UnpackedFloat.compare, unsignedZero]
    | infinity t => cases t <;> simp [UnpackedFloat.compare, unsignedZero]
    | _ => simp [UnpackedFloat.compare, unsignedZero]
  | finite s m d hm =>
    cases y with
    | finite t n e hn =>
      cases s <;> cases t <;> simp [UnpackedFloat.compare, unsignedZero, and_comm]
    | infinity t => cases t <;> simp [UnpackedFloat.compare, unsignedZero]
    | _ => cases s <;> simp [UnpackedFloat.compare, unsignedZero]

/-- Numbers are equal if they are numbers at all and stand for the same. -/
theorem beq_iff {x y : Float} :
    (x == y) = true ↔ x.toModel.unpack ≠ .notANumber ∧
      unsignedZero x.toModel.unpack = unsignedZero y.toModel.unpack := by
  rw [← compare_eq_iff]
  change (UnpackedFloat.compare _ _ == some Ordering.eq) = true ↔ _
  rw [beq_iff_eq]

theorem beq_symm {x y : Float} (h : (x == y) = true) : (y == x) = true := by
  obtain ⟨hx, hxy⟩ := beq_iff.mp h
  refine beq_iff.mpr ⟨fun hy => hx ?_, hxy.symm⟩
  rw [hy] at hxy
  cases hunpack : x.toModel.unpack <;> simp [hunpack, unsignedZero] at hxy ⊢

theorem beq_trans {x y z : Float} (h : (x == y) = true) (h' : (y == z) = true) :
    (x == z) = true := by
  obtain ⟨hx, hxy⟩ := beq_iff.mp h
  obtain ⟨-, hyz⟩ := beq_iff.mp h'
  exact beq_iff.mpr ⟨hx, hxy.trans hyz⟩

/-- The two zeros are equal. -/
example : ((0 : Float) == -0) = true := by decide +kernel

end Number

namespace Atom

variable {k k' k'' : Atom}

theorem same_symm (h : k.same k' = true) : k'.same k = true := by
  cases k with
  | number x =>
    cases k' with
    | number y => exact Number.beq_symm h
    | _ => cases h
  | _ => cases k' <;> simp_all [same]

theorem same_trans (h : k.same k' = true) (h' : k'.same k'' = true) : k.same k'' = true := by
  cases k with
  | number x =>
    cases k' with
    | number y =>
      cases k'' with
      | number z => exact Number.beq_trans h h'
      | _ => cases h'
    | _ => cases h
  | _ => cases k' <;> cases k'' <;> simp_all [same]

theorem same_comm (k k' : Atom) : k.same k' = k'.same k :=
  Bool.eq_iff_iff.mpr ⟨same_symm, same_symm⟩

/-- Equal atoms are equal to the same atoms. -/
theorem same_congr (h : k.same k' = true) (k'' : Atom) : k.same k'' = k'.same k'' :=
  Bool.eq_iff_iff.mpr ⟨same_trans (same_symm h), same_trans h⟩

/-- Only what is no number differs from itself. -/
theorem same_self (h : k.isNaN = false) : k.same k = true := by
  cases k with
  | number x => simpa [isNaN, Number.isNaN, same] using h
  | _ => simp [same]

theorem same_of_isNaN (h : k.isNaN = true) (k' : Atom) : k.same k' = false := by
  cases hsame : k.same k' with
  | false => rfl
  | true =>
    have hself : k.same k = true := same_trans hsame (same_symm hsame)
    cases k with
    | number x =>
      have hx : (x == x) = true := hself
      simp [isNaN, Number.isNaN, hx] at h
    | _ => simp [isNaN] at h

end Atom

/-! ### Entries -/

namespace Entries

variable {k k' : Atom} {v : Value}

theorem find?_cons (k a : Atom) (w : Value) (es : Entries) :
    find? k ((a, w) :: es) = if k.same a then some w else find? k es := rfl

theorem insert_cons (k a : Atom) (v w : Value) (es : Entries) :
    insert k v ((a, w) :: es) = if k.same a then (k, v) :: es else (a, w) :: insert k v es := rfl

theorem find?_congr (h : k.same k' = true) : ∀ es : Entries, find? k es = find? k' es
  | [] => rfl
  | (a, w) :: es => by
    rw [find?_cons, find?_cons, find?_congr h es, Atom.same_congr h a]

theorem find?_of_isNaN (h : k.isNaN = true) : ∀ es : Entries, find? k es = none
  | [] => rfl
  | (a, w) :: es => by
    rw [find?_cons, Atom.same_of_isNaN h, find?_of_isNaN h es]
    rfl

/-- An equal key finds what has been inserted. -/
theorem find?_insert_of_same (h : k.same k' = true) (v : Value) : ∀ es : Entries,
    find? k' (insert k v es) = some v
  | [] => by
    have hsymm := Atom.same_symm h
    rw [insert, find?_cons, if_pos hsymm]
  | (a, w) :: es => by
    rw [insert_cons]
    by_cases ha : k.same a
    · have hsymm := Atom.same_symm h
      rw [if_pos ha, find?_cons, if_pos hsymm]
    · have ha' : ¬ k'.same a := by rwa [← Atom.same_congr h a]
      rw [if_neg ha, find?_cons, if_neg ha', find?_insert_of_same h v es]

/-- Any other key finds what it found before. -/
theorem find?_insert_of_not_same (h : k.same k' = false) (v : Value) : ∀ es : Entries,
    find? k' (insert k v es) = find? k' es
  | [] => by
    rw [insert, find?_cons, Atom.same_comm, h]
    rfl
  | (a, w) :: es => by
    have hne : ¬ k'.same k := by rw [Atom.same_comm, h]; simp
    rw [insert_cons]
    by_cases ha : k.same a
    · have ha' : ¬ k'.same a := by rwa [Atom.same_comm k' a, ← Atom.same_congr ha, Atom.same_comm]
      rw [if_pos ha, find?_cons, if_neg hne, find?_cons, if_neg ha']
    · rw [if_neg ha, find?_cons, find?_cons, find?_insert_of_not_same h v es]

/-- There is one entry more if the key was not found, and otherwise as many as before. -/
theorem length_insert (k : Atom) (v : Value) : ∀ es : Entries,
    (insert k v es).length = if find? k es = none then es.length + 1 else es.length
  | [] => rfl
  | (a, w) :: es => by
    rw [insert_cons, find?_cons]
    by_cases ha : k.same a
    · simp [ha]
    · rw [if_neg ha, if_neg ha, List.length_cons, length_insert k v es]
      by_cases hnone : find? k es = none
      · rw [if_pos hnone, if_pos hnone, List.length_cons]
      · rw [if_neg hnone, if_neg hnone, List.length_cons]

/-- The entries with some pairs added in order. -/
def insertPairs (es : Entries) (ps : List (Atom × Value)) : Entries :=
  ps.foldl (fun es p => insert p.1 p.2 es) es

/-- The last pair with an equal key counts. -/
theorem find?_insertPairs (k : Atom) : ∀ (ps : List (Atom × Value)) (es : Entries),
    find? k (insertPairs es ps) =
      ((ps.reverse.find? fun p => p.1.same k).map Prod.snd).or (find? k es)
  | [], _ => rfl
  | p :: ps, es => by
    have htail : find? k (insertPairs es (p :: ps)) =
        ((ps.reverse.find? fun p => p.1.same k).map Prod.snd).or (find? k (insert p.1 p.2 es)) :=
      find?_insertPairs k ps (insert p.1 p.2 es)
    rw [htail, List.reverse_cons, List.find?_append]
    cases ps.reverse.find? fun p => p.1.same k with
    | some q => rfl
    | none =>
      cases hp : p.1.same k with
      | true => simp [hp, find?_insert_of_same hp]
      | false => simp [hp, find?_insert_of_not_same hp]

end Entries

/-! ### Maps as arguments -/

namespace Value

/-- The entries of a map; `nil` counts as the empty map. -/
def entries? : Value → Option Entries
  | .nil => some []
  | .map _ es => some es
  | _ => none

/-- What a call gives for a value that the function computes: the value, but a new list or map may
have got a stamp. -/
inductive Copy : Value → Value → Prop where
  | plain (v : Value) : Copy v v.orNil
  | list (stamp : Nat) (items : List Value) : Copy (.list 0 items) (.list stamp items)
  | map (stamp : Nat) (es : List (Atom × Value)) : Copy (.map 0 es) (.map stamp es)

theorem entries?_cases {m : Value} {es : Entries} (h : m.entries? = some es) :
    m = .nil ∧ es = [] ∨ ∃ stamp, m = .map stamp es := by
  unfold entries? at h
  split at h
  · exact Or.inl ⟨rfl, (Option.some.inj h).symm⟩
  · rename_i stamp es'
    exact Or.inr ⟨stamp, by rw [Option.some.inj h]⟩
  · cases h

theorem Copy.entries? {v w : Value} (h : Copy v w) {es : Entries} (hv : v.entries? = some es) :
    w.entries? = some es := by
  cases h with
  | plain =>
    rcases entries?_cases hv with ⟨rfl, rfl⟩ | ⟨stamp, rfl⟩ <;> rfl
  | list => cases hv
  | map => exact hv

end Value

namespace Maps

open Builtin (withPairs addPairs)

variable {L : Legend} {m : Value} {es : Entries}

/-- Keys and values in turn, as the functions of maps take them. -/
def inTurn (ps : List (Value × Value)) : List Value := ps.flatMap fun p => [p.1, p.2]

/-- Pairs with atoms as their keys. -/
def keyed (ps : List (Atom × Value)) : List (Value × Value) := ps.map fun p => (.atom p.1, p.2)

theorem inTurn_cons (k v : Value) (ps : List (Value × Value)) :
    inTurn ((k, v) :: ps) = k :: v :: inTurn ps := rfl

theorem length_inTurn : ∀ ps : List (Value × Value), (inTurn ps).length = 2 * ps.length
  | [] => rfl
  | (k, v) :: ps =>
    calc (inTurn ((k, v) :: ps)).length = (inTurn ps).length + 2 := by rw [inTurn_cons]; rfl
      _ = 2 * ps.length + 2 := by rw [length_inTurn ps]
      _ = 2 * ((k, v) :: ps).length := by rw [List.length_cons, Nat.mul_add]

theorem addPairs_keyed : ∀ (ps : List (Atom × Value)) (i : Nat) (es : Entries),
    addPairs i es (inTurn (keyed ps)) = .ok (.ok (es.insertPairs ps))
  | [], _, _ => rfl
  | p :: ps, i, es => addPairs_keyed ps (i + 2) (es.insert p.1 p.2)

theorem addPairs_unhashable : ∀ {ps : List (Value × Value)} {p : Value × Value} (i : Nat)
    (es : Entries), (ps.find? fun p => !p.1.isKey) = some p →
      addPairs i es (inTurn ps) = .ok (.error p.1)
  | [], _, _, _, h => by cases h
  | (k, v) :: ps, p, i, es, h => by
    rw [inTurn_cons]
    cases k with
    | atom a => exact addPairs_unhashable (i + 2) (es.insert a v) h
    | _ =>
      obtain rfl := Option.some.inj h
      rfl

/-! ### What the functions compute -/

theorem getFrom_map (stamp : Nat) (es : Entries) (k : Atom) (d : Value) :
    Builtin.getFrom L (.map stamp es) (.atom k) d = .ok ((es.find? k).getD d) := by
  rw [Builtin.getFrom, Value.isKey, if_pos rfl, Entries.read, except_ok_bind]
  cases es.find? k <;> rfl

theorem apply_get (h : m.entries? = some es) (k : Atom) (d : Value) :
    Builtin.get.apply L [m, .atom k, d] = .ok ((es.find? k).getD d) := by
  rcases Value.entries?_cases h with ⟨rfl, rfl⟩ | ⟨stamp, rfl⟩
  · rfl
  · exact getFrom_map (L := L) stamp es k d

theorem apply_get_unhashable (h : m.entries? = some es) {k : Value} (hk : k.isKey = false)
    (d : Value) : Builtin.get.apply L [m, k, d] = .ok d := by
  rcases Value.entries?_cases h with ⟨rfl, rfl⟩ | ⟨stamp, rfl⟩
  · rfl
  · cases k with
    | atom a => cases hk
    | _ => rfl

theorem apply_count (h : m.entries? = some es) :
    Builtin.count.apply L [m] = .ok (.number (Number.ofNat es.length)) := by
  rcases Value.entries?_cases h with ⟨rfl, rfl⟩ | ⟨stamp, rfl⟩ <;> rfl

theorem apply_hashMap (ps : List (Value × Value)) :
    Builtin.hashMap.apply L (inTurn ps) = withPairs L "hash-map" 0 [] (inTurn ps) := by
  have heven : ¬ (inTurn ps).length % 2 ≠ 0 := by
    rw [length_inTurn]
    omega
  rw [Builtin.apply, if_neg heven]

theorem apply_assoc (h : m.entries? = some es) {ps : List (Value × Value)} (hps : ps ≠ []) :
    Builtin.assoc.apply L (m :: inTurn ps) = withPairs L "assoc" 1 es (inTurn ps) := by
  have hlength : 0 < ps.length := List.length_pos_iff.mpr hps
  have hodd : ¬ ((m :: inTurn ps).length < 3 ∨ (m :: inTurn ps).length % 2 ≠ 1) := by
    rw [List.length_cons, length_inTurn]
    omega
  rcases Value.entries?_cases h with ⟨rfl, rfl⟩ | ⟨stamp, rfl⟩ <;> exact if_neg hodd

theorem withPairs_keyed (name : Text) (i : Nat) (es : Entries) (ps : List (Atom × Value)) :
    withPairs L name i es (inTurn (keyed ps)) = .ok (.map 0 (es.insertPairs ps)) := by
  rw [withPairs, addPairs_keyed]
  rfl

/-- Adds one pair to a map, as `assoc` does. -/
def assocOne (L : Legend) (m : Value) (p : Atom × Value) : Except Text Value :=
  Builtin.assoc.apply L [m, .atom p.1, p.2]

theorem assocOne_eq (h : m.entries? = some es) (p : Atom × Value) :
    assocOne L m p = .ok (.map 0 (es.insert p.1 p.2)) := by
  have hone : assocOne L m p = Builtin.assoc.apply L (m :: inTurn (keyed [p])) := rfl
  rw [hone, apply_assoc h (by simp [keyed]), withPairs_keyed]
  rfl

/-- One pair after the other. -/
theorem foldlM_assocOne : ∀ {ps : List (Atom × Value)} {m : Value} {es : Entries},
    m.entries? = some es → ps ≠ [] →
    ps.foldlM (assocOne L) m = .ok (.map 0 (es.insertPairs ps))
  | [], _, _, _, hps => absurd rfl hps
  | p :: ps, m, es, h, _ => by
    rw [List.foldlM_cons, assocOne_eq h p]
    change ps.foldlM (assocOne L) (.map 0 (es.insert p.1 p.2)) = _
    by_cases hps : ps = []
    · subst hps
      rfl
    · exact foldlM_assocOne rfl hps

/-! ### The laws -/

/-- A map after one more pair: an equal key finds the new value, any other key finds what it found
before, and there is one entry more exactly if the key found nothing. -/
structure Updated (L : Legend) (m : Value) (k : Atom) (v m' : Value) : Prop where
  self : ∀ d, Builtin.get.apply L [m', .atom k, d] = .ok v
  same : ∀ k' d, Builtin.eq.apply L [.atom k, .atom k'] = .ok (.bool true) →
    Builtin.get.apply L [m', .atom k', d] = .ok v
  other : ∀ k' d, Builtin.eq.apply L [.atom k, .atom k'] = .ok (.bool false) →
    Builtin.get.apply L [m', .atom k', d] = Builtin.get.apply L [m, .atom k', d]
  count : ∃ n n', Builtin.count.apply L [m] = .ok (.number (Number.ofNat n)) ∧
    Builtin.count.apply L [m'] = .ok (.number (Number.ofNat n')) ∧
    ((∀ d, Builtin.get.apply L [m, .atom k, d] = .ok d) → n' = n + 1) ∧
    ((∃ d, Builtin.get.apply L [m, .atom k, d] ≠ .ok d) → n' = n)

/-- A call that is refused for a value that is no key: its result is a fault about an argument, or,
if the value cannot be printed, the failure to print it. -/
inductive Rejected (L : Legend) (k : Value) : Except Text Value → Prop where
  | argument {fault : Fault} (hkind : fault.kind = .argument)
      (htext : ∃ text, k.described L = .ok text) : Rejected L k (.ok (.error fault))
  | unprintable {reason : Text} (htext : k.described L = .error reason) :
      Rejected L k (.error reason)

theorem rejected_withPairs (name : Text) {ps : List (Value × Value)} {p : Value × Value}
    (h : (ps.find? fun p => !p.1.isKey) = some p) (i : Nat) (es : Entries) :
    Rejected L p.1 (withPairs L name i es (inTurn ps)) := by
  rw [withPairs, addPairs_unhashable i es h, except_ok_bind]
  dsimp only
  cases htext : p.1.described L with
  | ok text => exact .argument rfl ⟨text, htext⟩
  | error reason => exact .unprintable htext

theorem eq_true_iff {k k' : Atom} :
    Builtin.eq.apply L [.atom k, .atom k'] = .ok (.bool true) ↔ k.same k' = true := by
  rw [Builtin.apply_eq]
  simp [Value.same]

theorem eq_false_iff {k k' : Atom} :
    Builtin.eq.apply L [.atom k, .atom k'] = .ok (.bool false) ↔ k.same k' = false := by
  rw [Builtin.apply_eq]
  simp [Value.same]

/-- A key that finds nothing is one that always gets the default. -/
theorem find?_eq_none_iff (h : m.entries? = some es) (k : Atom) :
    es.find? k = none ↔ ∀ d, Builtin.get.apply L [m, .atom k, d] = .ok d := by
  constructor
  · intro hnone d
    rw [apply_get h, hnone]
    rfl
  · intro hdefault
    cases hfind : es.find? k with
    | none => rfl
    | some w =>
      -- one value cannot be both of two defaults
      have hnil := hdefault .nil
      have hfalse := hdefault (.bool false)
      rw [apply_get h, hfind] at hnil hfalse
      have hw : w = .nil := Except.ok.inj hnil
      have hw' : w = .bool false := Except.ok.inj hfalse
      rw [hw] at hw'
      cases hw'

theorem updated_insert (h : m.entries? = some es) {k : Atom} (hk : k.isNaN = false) (v : Value) :
    Updated L m k v (.map 0 (es.insert k v)) := by
  have hentries : (Value.map 0 (es.insert k v)).entries? = some (es.insert k v) := rfl
  have hsame (k' : Atom) (hk' : k.same k' = true) (d : Value) :
      Builtin.get.apply L [.map 0 (es.insert k v), .atom k', d] = .ok v := by
    rw [apply_get hentries, Entries.find?_insert_of_same hk']
    rfl
  constructor
  case self => exact hsame k (Atom.same_self hk)
  case same =>
    intro k' d heq
    exact hsame k' (eq_true_iff.mp heq) d
  case other =>
    intro k' d hne
    rw [apply_get hentries, apply_get h, Entries.find?_insert_of_not_same (eq_false_iff.mp hne)]
  case count =>
    refine ⟨es.length, (es.insert k v).length, apply_count h, apply_count hentries, ?_, ?_⟩
    · intro hdefault
      have hnone := (find?_eq_none_iff h k).mpr hdefault
      rw [Entries.length_insert, if_pos hnone]
    · rintro ⟨d, hd⟩
      have hsome : ¬ es.find? k = none := fun hnone => hd ((find?_eq_none_iff h k).mp hnone d)
      rw [Entries.length_insert, if_neg hsome]

/-- Keys that always find the same are equal. -/
theorem same_entry_iff {k k' : Atom} (hk : k.isNaN = false) :
    Builtin.eq.apply L [.atom k, .atom k'] = .ok (.bool true) ↔
      ∀ (m : Value) (es : Entries) (d : Value), m.entries? = some es →
        Builtin.get.apply L [m, .atom k, d] = Builtin.get.apply L [m, .atom k', d] := by
  rw [eq_true_iff]
  constructor
  · intro hsame m es d h
    rw [apply_get h, apply_get h, Entries.find?_congr hsame]
  · intro hget
    by_contra hne
    -- the map of `k` alone tells them apart
    have hfalse : k.same k' = false := by simpa using hne
    have hall := hget (.map 0 (Entries.insert k .nil [])) _ (.bool false) rfl
    rw [apply_get rfl, apply_get rfl, Entries.find?_insert_of_same (Atom.same_self hk),
      Entries.find?_insert_of_not_same hfalse] at hall
    cases hall

/-- Of equal keys, the last one wins. -/
theorem get_hashMap (before after : List (Atom × Value)) {k : Atom} (hk : k.isNaN = false)
    (hafter : ∀ p ∈ after, Builtin.eq.apply L [.atom p.1, .atom k] = .ok (.bool false))
    (v d : Value) :
    Builtin.get.apply L [.map 0 (Entries.insertPairs [] (before ++ (k, v) :: after)), .atom k, d] =
      .ok v := by
  have hnone : (after.reverse.find? fun p => p.1.same k) = none := by
    rw [List.find?_eq_none]
    intro p hp
    rw [eq_false_iff.mp (hafter p (List.mem_reverse.mp hp))]
    simp
  have hsplit : (before ++ (k, v) :: after).reverse = after.reverse ++ (k, v) :: before.reverse := by
    simp
  rw [apply_get rfl, Entries.find?_insertPairs, hsplit, List.find?_append, hnone]
  simp [Atom.same_self hk]

/-! ### Calls -/

/-- The functions of maps cannot tell a copy of a map from the map. -/
theorem apply_copy {m' : Value} (h : m.entries? = some es) (hcopy : Value.Copy m m')
    (args : List Value) :
    Builtin.get.apply L (m' :: args) = Builtin.get.apply L (m :: args) ∧
      Builtin.assoc.apply L (m' :: args) = Builtin.assoc.apply L (m :: args) ∧
      Builtin.count.apply L (m' :: args) = Builtin.count.apply L (m :: args) := by
  cases hcopy with
  | plain =>
    have hsame : m.orNil = m := by
      rcases Value.entries?_cases h with ⟨rfl, rfl⟩ | ⟨stamp, rfl⟩ <;> rfl
    rw [hsame]
    exact ⟨rfl, rfl, rfl⟩
  | list => cases h
  | map stamp es =>
    refine ⟨?get, rfl, rfl⟩
    case get => rcases args with _ | ⟨k, _ | ⟨d, _ | ⟨e, more⟩⟩⟩ <;> rfl

theorem copy_stamped {v : Value} (hv : v ≠ .absent) (n : Nat) : v.Copy (v.stamped n).1 := by
  have hplain : v.orNil = v := by
    cases v with
    | absent => exact absurd rfl hv
    | _ => rfl
  have hcopy := Value.Copy.plain v
  rw [hplain] at hcopy
  unfold Value.stamped
  split_ifs with hneeds
  · unfold Value.needsStamp at hneeds
    split at hneeds
    · exact .list _ _
    · exact .map _ _
    · simp at hneeds
  · exact hcopy

/-- A call of a built-in function gives a copy of what the function computes, and changes nothing
but the last stamp. -/
theorem call_gives_copy {M : Machine σ} {s : Store σ} {ref : Nat} {f : Function} {b : Builtin}
    {args : List Value} (hf : s.functions[ref]? = some f) (hbody : f.body = .builtin b) {v : Value}
    (hv : b.apply (s.legend M.host) args = .ok v) :
    ∃ w stamps, v.Copy w ∧ M.unbounded.call ref args s = .done w { s with stamps } := by
  have hcall : M.call M.unbounded ref args s =
      (if b.builds then Action.stamped v else pure v.orNil : Action σ Value) s := by
    simp only [Machine.call, bind, Action.bind, Action.store, hf, hbody, hv, Action.ofExcept]
    rfl
  have hsame := M.unbounded_call ref args s
  rw [hcall] at hsame
  by_cases hbuilds : b.builds = true
  · have hpresent : v ≠ .absent := by
      rintro rfl
      exact Builtin.present_apply _ hbuilds _ hv
    rw [if_pos hbuilds] at hsame
    exact ⟨_, _, copy_stamped hpresent s.stamps, Outcome.same_done_iff.mp hsame⟩
  · rw [if_neg hbuilds] at hsame
    exact ⟨_, s.stamps, .plain v, Outcome.same_done_iff.mp hsame⟩

theorem call_raises {M : Machine σ} {s : Store σ} {ref : Nat} {f : Function} {b : Builtin}
    {args : List Value} (hf : s.functions[ref]? = some f) (hbody : f.body = .builtin b)
    {reason : Text} (hv : b.apply (s.legend M.host) args = .error reason) :
    M.unbounded.call ref args s = .raised (.native reason) s := by
  have hcall : M.call M.unbounded ref args s = .raised (.native reason) s := by
    simp only [Machine.call, bind, Action.bind, Action.store, hf, hbody, hv, Action.ofExcept]
    rfl
  exact Outcome.same_raised_iff.mp ((M.unbounded_call ref args s).trans (.of_eq hcall))

/-- The laws of finite maps, for all values as maps that have entries. -/
structure Lawful (L : Legend) : Prop where
  /-- One more pair. -/
  one : ∀ (m : Value) (es : Entries) (k : Atom) (v : Value), m.entries? = some es →
    k.isNaN = false → ∃ m' es', Builtin.assoc.apply L [m, .atom k, v] = .ok m' ∧
      m'.entries? = some es' ∧ Updated L m k v m'
  /-- Several pairs are added one after the other. -/
  several : ∀ (m : Value) (es : Entries) (ps : List (Atom × Value)), m.entries? = some es →
    ps ≠ [] → Builtin.assoc.apply L (m :: inTurn (keyed ps)) = ps.foldlM (assocOne L) m
  /-- The pairs of a new map are added to the empty map. -/
  fresh : ∀ ps : List (Atom × Value),
    Builtin.hashMap.apply L (inTurn (keyed ps)) = ps.foldlM (assocOne L) (.map 0 [])
  /-- The last of equal keys wins. -/
  last : ∀ (before after : List (Atom × Value)) (k : Atom) (v : Value), k.isNaN = false →
    (∀ p ∈ after, Builtin.eq.apply L [.atom p.1, .atom k] = .ok (.bool false)) →
    ∃ m, Builtin.hashMap.apply L (inTurn (keyed (before ++ (k, v) :: after))) = .ok m ∧
      ∀ d, Builtin.get.apply L [m, .atom k, d] = .ok v
  /-- Two keys are equal exactly if they address the same entry of every map. -/
  keys : ∀ k k' : Atom, k.isNaN = false → k'.isNaN = false →
    (Builtin.eq.apply L [.atom k, .atom k'] = .ok (.bool true) ↔
      ∀ (m : Value) (es : Entries) (d : Value), m.entries? = some es →
        Builtin.get.apply L [m, .atom k, d] = Builtin.get.apply L [m, .atom k', d])
  /-- The first value that is no key is what a call is refused for, wherever it stands. -/
  rejected : ∀ (ps : List (Value × Value)) (p : Value × Value),
    (ps.find? fun p => !p.1.isKey) = some p →
      Rejected L p.1 (Builtin.hashMap.apply L (inTurn ps)) ∧
      ∀ (m : Value) (es : Entries), m.entries? = some es →
        Rejected L p.1 (Builtin.assoc.apply L (m :: inTurn ps))
  /-- What is no key, or no number, is not found. -/
  default : ∀ (m : Value) (es : Entries) (k d : Value), m.entries? = some es →
    k.isKey = false ∨ k.isNaN = true →
    Builtin.get.apply L [m, k, d] = .ok d ∧ Builtin.get.apply L [m, k] = .ok .nil
  /-- Copies of a map are as good as the map. -/
  copies : ∀ (m m' : Value) (es : Entries) (args : List Value), m.entries? = some es → m.Copy m' →
    m'.entries? = some es ∧
      Builtin.get.apply L (m' :: args) = Builtin.get.apply L (m :: args) ∧
      Builtin.assoc.apply L (m' :: args) = Builtin.assoc.apply L (m :: args) ∧
      Builtin.count.apply L (m' :: args) = Builtin.count.apply L (m :: args)

theorem lawful (L : Legend) : Lawful L := by
  have hhashMap (ps : List (Atom × Value)) : Builtin.hashMap.apply L (inTurn (keyed ps)) =
      .ok (.map 0 (Entries.insertPairs [] ps)) := by
    rw [apply_hashMap, withPairs_keyed]
  constructor
  case one =>
    intro m es k v h hk
    exact ⟨_, _, assocOne_eq h (k, v), rfl, updated_insert h hk v⟩
  case several =>
    intro m es ps h hps
    have hkeyed : keyed ps ≠ [] := by simpa [keyed] using hps
    rw [apply_assoc h hkeyed, withPairs_keyed, foldlM_assocOne h hps]
  case fresh =>
    intro ps
    rw [hhashMap]
    by_cases hps : ps = []
    · rw [hps]
      rfl
    · rw [foldlM_assocOne rfl hps]
  case last =>
    intro before after k v hk hafter
    exact ⟨_, hhashMap _, get_hashMap before after hk hafter v⟩
  case keys =>
    intro k k' hk _
    exact same_entry_iff hk
  case rejected =>
    intro ps p hp
    have hps : ps ≠ [] := by
      rintro rfl
      cases hp
    refine ⟨?_, fun m es h => ?_⟩
    · rw [apply_hashMap]
      exact rejected_withPairs _ hp 0 []
    · rw [apply_assoc h hps]
      exact rejected_withPairs _ hp 1 es
  case default =>
    rintro m es k d h (hkey | hnan)
    · exact ⟨apply_get_unhashable h hkey d, apply_get_unhashable h hkey .nil⟩
    · obtain ⟨a, rfl, ha⟩ : ∃ a, k = .atom a ∧ a.isNaN = true := by
        cases k with
        | atom a => exact ⟨a, rfl, hnan⟩
        | _ => cases hnan
      have hnone := Entries.find?_of_isNaN ha es
      have hget (d : Value) : Builtin.get.apply L [m, .atom a, d] = .ok d := by
        rw [apply_get h, hnone, Option.getD_none]
      exact ⟨hget d, hget .nil⟩
  case copies =>
    intro m m' es args h hcopy
    exact ⟨hcopy.entries? h, apply_copy h hcopy args⟩

/-- **Maps obey the laws of finite maps**, with `=` between the keys. A call of one of the functions
gives a copy of what the laws say and changes nothing but the last stamp, so that all maps that
there were are as they were. -/
theorem maps_obey_laws (M : Machine σ) (s : Store σ) :
    Lawful (s.legend M.host) ∧
    ∀ (ref : Nat) (f : Function) (b : Builtin) (args : List Value),
      s.functions[ref]? = some f → f.body = .builtin b →
      (∀ v, b.apply (s.legend M.host) args = .ok v →
        ∃ w stamps, v.Copy w ∧ M.unbounded.call ref args s = .done w { s with stamps }) ∧
      ∀ reason, b.apply (s.legend M.host) args = .error reason →
        M.unbounded.call ref args s = .raised (.native reason) s := by
  refine ⟨lawful _, fun ref f b args hf hbody => ⟨fun v hv => ?_, fun reason hv => ?_⟩⟩
  · exact call_gives_copy hf hbody hv
  · exact call_raises hf hbody hv

/-- A map with the key `0` is called up with `-0`, and a list is no key. -/
theorem maps_obey_laws_at_zero :
    let M := (Session.start .default .none ()).machine
    let s := Store.withGlobals "user" ()
    let L := s.legend M.host
    let zero : Value := .number 0
    ∃ assoc m stamps, M.unbounded.call assoc [.nil, zero, .keyword ":a"] s =
        .done m { s with stamps } ∧
      Builtin.get.apply L [m, .number (-0), .nil] = .ok (.keyword ":a") ∧
      Rejected L (.list 0 []) (Builtin.hashMap.apply L [zero, .nil, .list 0 [], .nil]) := by
  intro M s L zero
  obtain ⟨hlaws, hcalls⟩ := maps_obey_laws M s
  obtain ⟨assoc, f, -, hf, hbody⟩ := Store.body?_eq_some.mp
    ((Store.standard_withGlobals "user" ()).builtins .assoc)
  have hzero : (Atom.number 0).isNaN = false := by decide +kernel
  have hequal : Builtin.eq.apply L [zero, .number (-0)] = .ok (.bool true) :=
    eq_true_iff.mpr (by decide +kernel)
  obtain ⟨m, es, hassoc, hm, hupdated⟩ := hlaws.one .nil [] (.number 0) (.keyword ":a") rfl hzero
  obtain ⟨w, stamps, hcopy, hcall⟩ := (hcalls assoc f .assoc _ hf hbody).1 m hassoc
  refine ⟨assoc, w, stamps, hcall, ?_, (hlaws.rejected [(zero, .nil), (.list 0 [], .nil)] _ rfl).1⟩
  obtain ⟨-, hget, -⟩ := hlaws.copies m w es [.number (-0), .nil] hm hcopy
  exact hget.trans (hupdated.same (.number (-0)) .nil hequal)

end Maps

end LittleLisp
