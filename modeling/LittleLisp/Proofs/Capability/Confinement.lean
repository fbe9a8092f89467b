/-
# What programs can come by

A program uses the host objects that it comes by: those in the module and in its own trees,
those that functions and methods of the embedding program hand out, and those that stand
behind them when they are passed to a method as host values and come back. A set of objects
is confining if it is closed under all this. Confining sets can be intersected, so there is
a least one that holds what an evaluation starts with, the obtainable objects.

Key definitions: `HostValue.Reaches`, `Script.Within`, `Host.Confines`,
`Machine.Obtainable`.
Key theorems: `HostValue.reaches_of_toValue`, `HostValue.brings_of_ofValue`,
`Host.Confines.offers`, `Machine.encloses_obtainable`.
-/
import LittleLisp.Proofs.Policy.Session

namespace LittleLisp

variable {σ : Type} {o : Object}

/-! ### Objects in values -/

namespace Value

theorem has_object_list {stamp : Nat} {items : List Value} :
    (Value.list stamp items).Has (.object o) ↔ ∃ v ∈ items, v.Has (.object o) := by
  refine ⟨fun h => ?_, fun ⟨v, hv, h⟩ => .item hv h⟩
  cases h with
  | item hv h => exact ⟨_, hv, h⟩

theorem has_object_map {stamp : Nat} {entries : Entries} :
    (Value.map stamp entries).Has (.object o) ↔ ∃ x ∈ entries, x.2.Has (.object o) := by
  refine ⟨fun h => ?_, fun ⟨x, hx, h⟩ => .entry hx h⟩
  cases h with
  | entry hx h => exact ⟨_, hx, h⟩

theorem not_has_object_atom {a : Atom} : ¬ (Value.atom a).Has (.object o) := nofun

/-- A value whose objects are all in `C`. -/
def Within (C : Object → Prop) (v : Value) : Prop := ∀ o, v.Has (.object o) → C o

theorem within_iff_every {C : Object → Prop} {v : Value} :
    v.Within C ↔ v.Every fun w => ∀ o, w = .object o → C o := by
  refine ⟨fun h => every_of_has v fun w hw _ o ho => h o (ho ▸ hw), fun h o ho => ?_⟩
  exact (h.of_has ho).of_part rfl o rfl

end Value

/-! ### Host values -/

/-- The host value behind an object. -/
def Object.handle? : Object → Option Handle
  | .hollow => none
  | .direct h => some h
  | .reflected h _ => h

namespace HostValue

/-- Whether a host value is a plain number, string or truth value, or empty. -/
def isPlain : HostValue → Bool
  | .nothing => true
  | .integer _ => true
  | .float _ => true
  | .string _ => true
  | .bool _ => true
  | _ => false

/-- A host value occurs in another one, at any depth of lists and maps. -/
inductive Has : HostValue → HostValue → Prop where
  | self {x : HostValue} : Has x x
  | item {items : List HostValue} {x y : HostValue} (hx : x ∈ items) (h : Has x y) :
      Has (.list items) y
  | entry {entries : List (HostKey × HostValue)} {e : HostKey × HostValue} {y : HostValue}
      (he : e ∈ entries) (h : Has e.2 y) : Has (.map entries) y

variable (H : HostTypes)

/-- What the language gets to see of a host value: what occurs in a value of the language that
occurs in it, or in what a handle that occurs in it is turned into. -/
inductive Reaches (x : HostValue) (w : Value) : Prop where
  | handle {h : Handle} (hx : x.Has (.handle h)) (hw : (ofHandle H h).Has w)
  | value {v : Value} (hx : x.Has (.value v)) (hw : v.Has w)

variable {H} {w : Value}

theorem Reaches.of_has {x y : HostValue} (h : x.Reaches H w) (hy : ∀ z, x.Has z → y.Has z) :
    y.Reaches H w := by
  cases h with
  | handle hx hw => exact .handle (hy _ hx) hw
  | value hx hw => exact .value (hy _ hx) hw

theorem reaches_list {items : List HostValue} :
    (HostValue.list items).Reaches H w ↔ ∃ x ∈ items, x.Reaches H w := by
  refine ⟨fun h => ?_, fun ⟨x, hx, h⟩ => h.of_has fun _ => .item hx⟩
  cases h with
  | handle hx hw => cases hx with
    | item hx h => exact ⟨_, hx, .handle h hw⟩
  | value hx hw => cases hx with
    | item hx h => exact ⟨_, hx, .value h hw⟩

theorem reaches_map {entries : List (HostKey × HostValue)} :
    (HostValue.map entries).Reaches H w ↔ ∃ e ∈ entries, e.2.Reaches H w := by
  refine ⟨fun h => ?_, fun ⟨e, he, h⟩ => h.of_has fun _ => .entry he⟩
  cases h with
  | handle hx hw => cases hx with
    | entry he h => exact ⟨_, he, .handle h hw⟩
  | value hx hw => cases hx with
    | entry he h => exact ⟨_, he, .value h hw⟩

theorem reaches_value {v : Value} : (HostValue.value v).Reaches H w ↔ v.Has w := by
  refine ⟨fun h => ?_, .value .self⟩
  cases h with
  | handle hx _ => cases hx
  | value hx hw => cases hx; exact hw

theorem reaches_handle {h : Handle} :
    (HostValue.handle h).Reaches H w ↔ (ofHandle H h).Has w := by
  refine ⟨fun hw => ?_, .handle .self⟩
  cases hw with
  | handle hx hw => cases hx; exact hw
  | value hx _ => cases hx

/-! ### From the host to the language -/

theorem toValues_eq_map (elem : HostType) : ∀ xs : List HostValue,
    toValues H elem xs = xs.map (toValue H elem)
  | [] => rfl
  | x :: xs => by rw [toValues, toValues_eq_map elem xs, List.map_cons]

theorem mem_toEntries {key elem : HostType} {e : Atom × Value} :
    ∀ {entries : List (HostKey × HostValue)} {done : Entries},
      e ∈ toEntries H key elem done entries →
        e ∈ done ∨ ∃ kx ∈ entries, e.2 = toValue H elem kx.2
  | [], done, h => Or.inl h
  | (k, x) :: rest, done, h => by
    rw [toEntries] at h
    rcases mem_toEntries h with h | ⟨kx, hkx, he⟩
    · rcases Entries.mem_insert h with h | h
      · exact Or.inr ⟨(k, x), List.mem_cons_self, h⟩
      · exact Or.inl h
    · exact Or.inr ⟨kx, List.mem_cons_of_mem _ hkx, he⟩

theorem toValue_list (t : HostType) (items : List HostValue) :
    ∃ elem, toValue H t (.list items) = .list 0 (items.map (toValue H elem)) := by
  simp only [← toValues_eq_map]
  cases t with
  | slice elem => exact ⟨elem, by rw [toValue]⟩
  | array n elem => exact ⟨elem, by rw [toValue]⟩
  | _ => exact ⟨.interface .any, by simp [toValue]⟩

theorem toValue_map (t : HostType) (entries : List (HostKey × HostValue)) :
    ∃ key elem, toValue H t (.map entries) = .map 0 (toEntries H key elem [] entries) := by
  cases t with
  | map key elem => exact ⟨key, elem, by rw [toValue]⟩
  | _ => exact ⟨.interface .any, .interface .any, by simp [toValue]⟩

/-- The objects that a host value brings into the language are reached by it. -/
theorem reaches_of_toValue : ∀ (x : HostValue) (t : HostType),
    (toValue H t x).Has (.object o) → x.Reaches H (.object o)
  | .nothing, t, h => by
    cases t <;> simp [toValue, Value.has_object_list, Value.has_object_map,
      Value.not_has_object_atom] at h
  | .integer n, t, h => by cases t <;> simp [toValue, Value.not_has_object_atom] at h
  | .float x, t, h => by cases t <;> simp [toValue, Value.not_has_object_atom] at h
  | .string s, t, h => by
    have ht : ∃ a, toValue H t (.string s) = .atom a := by
      cases t with
      | own o => cases o <;> exact ⟨_, by rw [toValue]; try nofun⟩
      | _ => exact ⟨_, by simp [toValue]; rfl⟩
    obtain ⟨a, ha⟩ := ht
    rw [ha] at h
    exact absurd h Value.not_has_object_atom
  | .bool b, t, h => by cases t <;> simp [toValue, Value.not_has_object_atom] at h
  | .list items, t, h => by
    obtain ⟨elem, ht⟩ := toValue_list (H := H) t items
    rw [ht, Value.has_object_list] at h
    obtain ⟨v, hv, h⟩ := h
    obtain ⟨x, hx, rfl⟩ := List.mem_map.mp hv
    exact reaches_list.mpr ⟨x, hx, reaches_of_toValue x elem h⟩
  | .map entries, t, h => by
    obtain ⟨key, elem, ht⟩ := toValue_map (H := H) t entries
    rw [ht, Value.has_object_map] at h
    obtain ⟨e, he, h⟩ := h
    rcases mem_toEntries he with he | ⟨kx, hkx, he⟩
    · simp at he
    · rw [he] at h
      exact reaches_map.mpr ⟨kx, hkx, reaches_of_toValue kx.2 elem h⟩
  | .handle h, t, hw => by
    have ht : toValue H t (.handle h) = ofHandle H h := by cases t <;> simp [toValue]
    exact reaches_handle.mpr (ht ▸ hw)
  | .value v, t, hw => by
    have ht : toValue H t (.value v) = v.orNil := by cases t <;> simp [toValue]
    rw [ht] at hw
    cases v with
    | absent => exact absurd hw Value.not_has_object_atom
    | _ => exact reaches_value.mpr hw
termination_by x => sizeOf x
decreasing_by
  · have := List.sizeOf_lt_of_mem hx
    simp only [HostValue.list.sizeOf_spec]
    omega
  · have := List.sizeOf_lt_of_mem hkx
    obtain ⟨k, x⟩ := kx
    simp only [HostValue.map.sizeOf_spec, Prod.mk.sizeOf_spec] at this ⊢
    omega

/-- What a handle is turned into holds objects that answer look-ups themselves, and objects without
exports. -/
theorem objects_of_handle {h : Handle}
    (ho : (ofHandle H h).Has (.object o)) :
    (∃ k, o = .direct k ∧ H.isDirect k = true) ∨ ∃ k, o = .reflected (some k) [] := by
  have hobject : ∀ k, (objectOf H k).Has (.object o) →
      (∃ k, o = .direct k ∧ H.isDirect k = true) ∨ ∃ k, o = .reflected (some k) [] := by
    intro k hk
    unfold objectOf at hk
    split_ifs at hk with hdirect
    · cases hk
      exact Or.inl ⟨k, rfl, hdirect⟩
    · cases hk
      exact Or.inr ⟨k, rfl⟩
  unfold ofHandle at ho
  split at ho
  · obtain ⟨x, hx, ho⟩ := Value.has_object_map.mp ho
    obtain ⟨e, -, rfl⟩ := List.mem_map.mp hx
    exact hobject e.2 ho
  · exact hobject h ho

/-! ### From the language to the host -/

theorem not_reaches_plain {x : HostValue} (h : x.isPlain = true) : ¬ x.Reaches H w := by
  intro hx
  cases hx with
  | handle hx _ => cases hx <;> simp [isPlain] at h
  | value hx _ => cases hx <;> simp [isPlain] at h

theorem not_reaches_zero : ∀ t : HostType, ¬ t.zero.Reaches H (.object o)
  | .array n elem => by
    intro h
    rw [HostType.zero, reaches_list] at h
    obtain ⟨x, hx, h⟩ := h
    rw [List.eq_of_mem_replicate hx] at h
    exact not_reaches_zero elem h
  | .own t => by
    cases t with
    | nil => exact fun h => Value.not_has_object_atom (reaches_value.mp h)
    | undefined => exact fun h => nomatch reaches_value.mp h
    | primitive => exact fun h => Value.not_has_object_atom (reaches_value.mp h)
    | _ => exact not_reaches_plain rfl
  | .integer _ => not_reaches_plain rfl
  | .float32 => not_reaches_plain rfl
  | .float64 => not_reaches_plain rfl
  | .string _ => not_reaches_plain rfl
  | .bool => not_reaches_plain rfl
  | .slice _ => not_reaches_plain rfl
  | .map _ _ => not_reaches_plain rfl
  | .pointer _ => not_reaches_plain rfl
  | .struct _ => not_reaches_plain rfl
  | .table _ => not_reaches_plain rfl
  | .interface _ => not_reaches_plain rfl
  | .function _ => not_reaches_plain rfl

variable {L : Legend} {t : HostType} {x : HostValue}

theorem refuse_ne_ok {v : Value} : refuse L v t ≠ .ok x := by
  unfold refuse
  cases v.plainText L <;> simp

theorem eq_of_passed {v : Value} (h : passed L v t = .ok x) : x = .value v := by
  unfold passed at h
  split at h
  · split_ifs at h
    · exact (Except.ok.inj h).symm
    · exact absurd h refuse_ne_ok
  · split at h
    · exact (Except.ok.inj h).symm
    · exact absurd h refuse_ne_ok
  · exact absurd h refuse_ne_ok

theorem not_reaches_of_passed {a : Atom} (h : passed L (.atom a) t = .ok x) :
    ¬ x.Reaches H (.object o) := by
  rw [eq_of_passed h, reaches_value]
  exact Value.not_has_object_atom

theorem not_reaches_of_ofAtom {a : Atom} (h : ofAtom L a t = .ok x) :
    ¬ x.Reaches H (.object o) := by
  unfold ofAtom at h
  split at h
  case h_1 =>
    cases h
    exact not_reaches_zero _
  case h_2 =>
    split_ifs at h
    · cases h
      exact not_reaches_plain rfl
    · exact not_reaches_of_passed h
  case h_5 => exact not_reaches_of_passed h
  case h_17 => exact absurd h refuse_ne_ok
  all_goals
    cases h
    exact not_reaches_plain rfl

variable (H) in
/-- An object that a value brings into the embedding program: one that occurs in it, or that stands
behind one. -/
def Brings (v : Value) (o : Object) : Prop :=
  v.Has (.object o) ∨
    ∃ o' h, v.Has (.object o') ∧ o'.handle? = some h ∧ (ofHandle H h).Has (.object o)

theorem Brings.of_has {v u : Value} (h : Brings H v o)
    (hv : ∀ o, v.Has (.object o) → u.Has (.object o)) : Brings H u o := by
  rcases h with h | ⟨o', h, ho', hh, ho⟩
  · exact Or.inl (hv o h)
  · exact Or.inr ⟨o', h, hv o' ho', hh, ho⟩

theorem brings_of_passed {v : Value} (h : passed L v t = .ok x)
    (hx : x.Reaches H (.object o)) : Brings H v o := by
  rw [eq_of_passed h, reaches_value] at hx
  exact Or.inl hx

theorem brings_of_ofObject {o' : Object} (h : ofObject H L o' t = .ok x)
    (hx : x.Reaches H (.object o)) : Brings H (.object o') o := by
  have hhandle : ∀ h', o'.handle? = some h' → x = .handle h' → Brings H (.object o') o := by
    rintro h' ho' rfl
    exact Or.inr ⟨o', h', .self, ho', reaches_handle.mp hx⟩
  unfold ofObject at h
  split at h
  · simp at h
  · simp at h
  · split_ifs at h
    · exact hhandle _ rfl (Except.ok.inj h).symm
    · exact brings_of_passed h hx
  · split_ifs at h
    · exact hhandle _ rfl (Except.ok.inj h).symm
    · exact brings_of_passed h hx

theorem mem_ofItems {t : HostType} : ∀ {items : List Value} {xs : List HostValue},
    ofItems H L items t = .ok xs → ∀ x ∈ xs, ∃ v ∈ items, ofValue H L v t = .ok x
  | [], xs, h, x, hx => by
    cases h
    simp at hx
  | v :: vs, xs, h, x, hx => by
    simp only [ofItems, except_bind_eq_ok] at h
    obtain ⟨y, hy, ys, hys, h⟩ := h
    cases h
    rcases List.mem_cons.mp hx with rfl | hx
    · exact ⟨v, List.mem_cons_self, hy⟩
    · obtain ⟨u, hu, h⟩ := mem_ofItems hys x hx
      exact ⟨u, List.mem_cons_of_mem _ hu, h⟩

/-- A host value reaches no objects but those that the value it was made of brings with it. -/
theorem brings_of_ofValue (v : Value) (t : HostType) {x : HostValue} (h : ofValue H L v t = .ok x)
    (hx : x.Reaches H (.object o)) : Brings H v o := by
  -- Only the items of a list are converted by a further call, and they are smaller.
  induction hn : sizeOf v using Nat.strongRecOn generalizing v t x with | _ n ih => ?_
  unfold ofValue at h
  split at h
  · cases h
    exact Or.inl (reaches_value.mp hx)
  · exact absurd hx (not_reaches_of_ofAtom h)
  · exact brings_of_ofObject h hx
  · rename_i s items elem
    simp only [except_bind_eq_ok] at h
    obtain ⟨xs, hxs, h⟩ := h
    cases h
    obtain ⟨x, hmem, hx⟩ := reaches_list.mp hx
    obtain ⟨u, hu, h⟩ := mem_ofItems hxs x hmem
    have hsize : sizeOf u < n := by
      have := List.sizeOf_lt_of_mem hu
      simp only [Value.list.sizeOf_spec] at hn
      omega
    exact (ih _ hsize u elem h hx rfl).of_has fun _ => .item hu
  · cases h
    obtain ⟨x, hmem, hx⟩ := reaches_list.mp hx
    obtain ⟨u, hu, rfl⟩ := List.mem_map.mp hmem
    exact Or.inl (.item hu (reaches_value.mp hx))
  · exact absurd h refuse_ne_ok
  · split_ifs at h
    · cases h
      obtain ⟨e, hmem, hx⟩ := reaches_map.mp hx
      obtain ⟨u, hu, rfl⟩ := List.mem_map.mp hmem
      rw [reaches_value] at hx
      exact Or.inl (.entry hu hx)
    · exact absurd h refuse_ne_ok
  · exact absurd h refuse_ne_ok
  all_goals exact brings_of_passed h hx

/-- A host value through which the language sees no objects but those in `C`. -/
def Within (H : HostTypes) (C : Object → Prop) (x : HostValue) : Prop :=
  ∀ o, x.Reaches H (.object o) → C o

end HostValue

/-! ### Signatures -/

namespace Signature

variable {H : HostTypes} {L : Legend} {s : Signature} {name : Text}

theorem mem_convert : ∀ {args : List Value} {i : Nat} {xs : List HostValue},
    s.convert H L name i args = .ok xs →
      ∀ x ∈ xs, ∃ v ∈ args, ∃ t, HostValue.ofValue H L v t = .ok x
  | [], i, xs, h, x, hx => by
    cases h
    simp at hx
  | v :: vs, i, xs, h, x, hx => by
    unfold convert at h
    split at h
    · simp at h
    · simp at h
    · rename_i y hy
      split at h
      · rename_i ys hys
        cases h
        rcases List.mem_cons.mp hx with rfl | hx
        · exact ⟨v, List.mem_cons_self, _, hy⟩
        · obtain ⟨u, hu, h⟩ := mem_convert hys x hx
          exact ⟨u, List.mem_cons_of_mem _ hu, h⟩
      · simp at h

/-- The objects in the result of a call are reached by what the method returned. -/
theorem reaches_of_result {xs : List HostValue} (h : (s.result H xs).Has (.object o)) :
    ∃ x ∈ xs, x.Reaches H (.object o) := by
  have hmem : ∀ v ∈ (s.results.zip xs).map (fun p => HostValue.toValue H p.1 p.2),
      v.Has (.object o) → ∃ x ∈ xs, x.Reaches H (.object o) := by
    intro v hv ho
    obtain ⟨p, hp, rfl⟩ := List.mem_map.mp hv
    exact ⟨p.2, (List.of_mem_zip hp).2, HostValue.reaches_of_toValue _ _ ho⟩
  unfold result at h
  split at h
  · exact absurd h Value.not_has_object_atom
  · rename_i v hv
    exact hmem v (by simp [hv]) h
  · rename_i vs _ _
    obtain ⟨v, hv, h⟩ := Value.has_object_list.mp h
    exact hmem v hv h

/-- Every object in the result of a reflected method was a part of a value of the language that the
method returned, answers look-ups itself, or exports nothing. -/
theorem objects_of_result {xs : List HostValue} (ho : (s.result H xs).Has (.object o)) :
    (∃ x ∈ xs, ∃ v, x.Has (.value v) ∧ v.Has (.object o)) ∨
      (∃ k, o = .direct k ∧ H.isDirect k = true) ∨ ∃ k, o = .reflected (some k) [] := by
  obtain ⟨x, hx, hreach⟩ := reaches_of_result ho
  cases hreach with
  | handle _ hw => exact Or.inr (HostValue.objects_of_handle hw)
  | value hv hw => exact Or.inl ⟨x, hx, _, hv, hw⟩

end Signature

/-- An object without exports offers nothing. -/
theorem Host.not_exported_of_no_exports {H : Host σ} {h : Option Handle} {name : Text}
    {found : Host.Found σ} (hfound : H.lookup (.reflected h []) name = some found) :
    found.exported = false := by
  cases h with
  | none => simp [Host.lookup] at hfound
  | some h =>
    simp only [Host.lookup, Option.map_eq_some_iff] at hfound
    obtain ⟨m, -, rfl⟩ := hfound
    rfl

/-! ### Confining sets -/

/-- A script that is run with objects of `C` and in states of `I` only hands out such objects and
only leaves such states; its result satisfies `R`. -/
def Script.Within {α : Type} (C : Object → Prop) (I : σ → Prop) (R : α → Prop) :
    Script σ α → Prop
  | .done state a => I state ∧ R a
  | .raise state _ => I state
  | .call state _ args next =>
    I state ∧ (∀ v ∈ args, v.Within C) ∧
      ∀ state' v, I state' → v.Within C → Within C I R (next state' v)
  | .print state _ next => I state ∧ ∀ t, Within C I R (next t)
  | .nameOf state _ next => I state ∧ ∀ t, Within C I R (next t)

/-- The results that a method of a host type may return. -/
def HostValue.ReturnsWithin (H : HostTypes) (C : Object → Prop)
    (r : Except Text (List HostValue)) : Prop :=
  ∀ xs, r = .ok xs → ∀ x ∈ xs, x.Within H C

/-- An embedding program that is handed objects of `C` only, in states of `I`, hands out no others
and leaves no other states. Methods count as far as objects of `C` export them. -/
structure Host.Confines (H : Host σ) (C : Object → Prop) (I : σ → Prop) : Prop where
  /-- What stands behind an object comes back when a method returns it. -/
  unwrap : ∀ {o h}, C o → o.handle? = some h → (HostValue.ofHandle H.types h).Within C
  native : ∀ {name args state}, (∀ v ∈ args, v.Within C) → I state →
    (H.native name args state).Within C I (Value.Within C)
  direct : ∀ {h name m run args state}, C (.direct h) → H.direct h name = some m →
    m.exported = true → m.body = some run → (∀ v ∈ args, v.Within C) → I state →
    (run args state).Within C I (Value.Within C)
  reflected : ∀ {h exports name m args state}, C (.reflected (some h) exports) →
    name ∈ exports → H.reflected h.type name = some m →
    (∀ x ∈ args, x.Within H.types C) → I state →
    (m.body h args state).Within C I (HostValue.ReturnsWithin H.types C)

namespace Host.Confines

variable {H : Host σ} {C : Object → Prop} {I : σ → Prop}

/-- Arguments of a method are converted to host values that reach no other objects. -/
theorem convert (hH : H.Confines C I) {s : Signature} {L : Legend} {name : Text} {i : Nat}
    {args : List Value} {xs : List HostValue} (hargs : ∀ v ∈ args, v.Within C)
    (h : s.convert H.types L name i args = .ok xs) : ∀ x ∈ xs, x.Within H.types C := by
  intro x hx o ho
  obtain ⟨v, hv, t, ht⟩ := Signature.mem_convert h x hx
  rcases HostValue.brings_of_ofValue v t ht ho with hhas | ⟨o', k, ho', hk, hhas⟩
  · exact hargs v hv o hhas
  · exact hH.unwrap (hargs v hv o' ho') hk o hhas

theorem within_error (f : Fault) : (Value.error f).Within C := fun _ h => nomatch h

theorem finish {name : Text} {m : ReflectedMethod σ} :
    ∀ {script : Script σ (Except Text (List HostValue))},
      script.Within C I (HostValue.ReturnsWithin H.types C) →
        (callReflected.finish H name m script).Within C I (Value.Within C)
  | .done _ (.ok xs), ⟨hI, hr⟩ => by
    refine ⟨hI, fun o ho => ?_⟩
    obtain ⟨x, hx, hreach⟩ := Signature.reaches_of_result ho
    exact hr xs rfl x hx o hreach
  | .done _ (.error _), ⟨hI, _⟩ => ⟨hI, within_error _⟩
  | .raise _ _, hI => hI
  | .call _ _ _ _, ⟨hI, hargs, hnext⟩ =>
    ⟨hI, hargs, fun state v hs hv => finish (hnext state v hs hv)⟩
  | .print _ _ _, ⟨hI, hnext⟩ => ⟨hI, fun t => finish (hnext t)⟩
  | .nameOf _ _ _, ⟨hI, hnext⟩ => ⟨hI, fun t => finish (hnext t)⟩

/-- Whatever an object of the set offers stays within the set. -/
theorem offers (hH : H.Confines C I) (ho : C o) {name : Text} {found : Found σ}
    {run : Legend → List Value → σ → Script σ Value} (h : H.Offers o name found run)
    {args : List Value} (hargs : ∀ v ∈ args, v.Within C) {state : σ} (hs : I state)
    (L : Legend) : (run L args state).Within C I (Value.Within C) := by
  obtain ⟨hfound, hexported, hbody⟩ := h
  cases o with
  | hollow => simp [lookup] at hfound
  | direct h =>
    simp only [lookup, Option.map_eq_some_iff] at hfound
    obtain ⟨m, hm, rfl⟩ := hfound
    obtain ⟨body, hb, rfl⟩ := Option.map_eq_some_iff.mp hbody
    exact hH.direct ho hm hexported hb hargs hs
  | reflected h exports =>
    cases h with
    | none => simp [lookup] at hfound
    | some h =>
      simp only [lookup, Option.map_eq_some_iff] at hfound
      obtain ⟨m, hm, rfl⟩ := hfound
      cases hbody
      have hname : name ∈ exports := of_decide_eq_true hexported
      unfold callReflected
      cases m.signature.arityFault? name args.length with
      | some f => exact ⟨hs, within_error f⟩
      | none =>
        cases hxs : m.signature.convert H.types L name 0 args with
        | error a =>
          cases a with
          | fault f => exact ⟨hs, within_error f⟩
          | native message => exact hs
        | ok xs => exact finish (hH.reflected ho hname hm (hH.convert hargs hxs) hs)

end Host.Confines

/-! ### The least confining set -/

/-- Objects of `C` may be held, and the embedding program may be in states of `I`. -/
def Policy.confined (C : Object → Prop) (I : σ → Prop) : Policy σ where
  holds _ v := ∀ o, v = .object o → C o
  reports _ := True
  raises _ := True
  foreign := True
  states := I

/-- Objects and states that confine the embedding program, and that hold what the evaluation of a
forest starts with. -/
structure Machine.Encloses (M : Machine σ) (forest : Forest) (s : Store σ) (C : Object → Prop)
    (I : σ → Prop) : Prop where
  host : M.host.Confines C I
  store : (Policy.confined C I).StoreHeld M s
  forest : ∀ n ∈ forest, (Policy.confined C I).NodeHeld s.extent n

section Meet

variable {F : (Object → Prop) → (σ → Prop) → Prop} {e : Extent}

/-- The objects that all sets of a family have in common. -/
def CommonObjects (F : (Object → Prop) → (σ → Prop) → Prop) (o : Object) : Prop :=
  ∀ C I, F C I → C o

/-- The states that all sets of a family have in common. -/
def CommonStates (F : (Object → Prop) → (σ → Prop) → Prop) (state : σ) : Prop :=
  ∀ C I, F C I → I state

theorem within_meet {v : Value} (h : ∀ C I, F C I → v.Within C) : v.Within (CommonObjects F) :=
  fun o ho C I hF => h C I hF o ho

theorem Value.Within.of_meet {v : Value} (h : v.Within (CommonObjects F)) {C : Object → Prop}
    {I : σ → Prop} (hF : F C I) : v.Within C := fun o ho => h o ho C I hF

theorem script_meet {α : Type} {R : (Object → Prop) → α → Prop} {Q : α → Prop}
    (hR : ∀ a, (∀ C I, F C I → R C a) → Q a) : ∀ {x : Script σ α},
      (∀ C I, F C I → x.Within C I (R C)) → x.Within (CommonObjects F) (CommonStates F) Q
  | .done _ a, h => ⟨fun C I hF => (h C I hF).1, hR a fun C I hF => (h C I hF).2⟩
  | .raise _ _, h => fun C I hF => h C I hF
  | .call _ _ _ _, h =>
    ⟨fun C I hF => (h C I hF).1, fun v hv => within_meet fun C I hF => (h C I hF).2.1 v hv,
      fun state v hs hv => script_meet hR fun C I hF =>
        (h C I hF).2.2 state v (hs C I hF) (hv.of_meet hF)⟩
  | .print _ _ _, h =>
    ⟨fun C I hF => (h C I hF).1, fun t => script_meet hR fun C I hF => (h C I hF).2 t⟩
  | .nameOf _ _ _, h =>
    ⟨fun C I hF => (h C I hF).1, fun t => script_meet hR fun C I hF => (h C I hF).2 t⟩

theorem confines_meet {H : Host σ} (h : ∀ C I, F C I → H.Confines C I) :
    H.Confines (CommonObjects F) (CommonStates F) where
  unwrap ho hh := within_meet fun C I hF => (h C I hF).unwrap (ho C I hF) hh
  native hargs hs := script_meet (fun _ => within_meet) fun C I hF =>
    (h C I hF).native (fun v hv => (hargs v hv).of_meet hF) (hs C I hF)
  direct ho hm he hb hargs hs := script_meet (fun _ => within_meet) fun C I hF =>
    (h C I hF).direct (ho C I hF) hm he hb (fun v hv => (hargs v hv).of_meet hF) (hs C I hF)
  reflected ho hname hm hargs hs := by
    refine script_meet (R := HostValue.ReturnsWithin H.types) ?_ fun C I hF =>
      (h C I hF).reflected (ho C I hF) hname hm
        (fun x hx o ho => hargs x hx o ho C I hF) (hs C I hF)
    exact fun r hr xs hxs x hx o ho C I hF => hr C I hF xs hxs x hx o ho

open Policy

theorem held_meet {v : Value} (h : ∀ C I, F C I → (confined C I).Held e v) :
    (confined (CommonObjects F) (CommonStates F)).Held e v :=
  Value.within_iff_every.mp (within_meet fun C I hF => Value.within_iff_every.mpr (h C I hF))

theorem tokenHeld_meet {t : Token} (h : ∀ C I, F C I → (confined C I).TokenHeld e t) :
    (confined (CommonObjects F) (CommonStates F)).TokenHeld e t := by
  by_cases hid : t.type = .identifier ∧ ∃ n, t.value = .undefined n
  · exact Or.inl hid
  · exact Or.inr (held_meet fun C I hF => (h C I hF).resolve_left hid)

theorem nodeHeld_meet : ∀ n : Node, (∀ C I, F C I → (confined C I).NodeHeld e n) →
    (confined (CommonObjects F) (CommonStates F)).NodeHeld e n
  | .absent, _ => .absent
  | .leaf _, h => .leaf (tokenHeld_meet fun C I hF => match h C I hF with | .leaf ht => ht)
  | .form _, h => .form fun n hn =>
    nodeHeld_meet n fun C I hF => match h C I hF with | .form hns => hns n hn

theorem templateHeld_meet : ∀ t : Template, (∀ C I, F C I → (confined C I).TemplateHeld e t) →
    (confined (CommonObjects F) (CommonStates F)).TemplateHeld e t
  | .leaf _, h => .leaf (tokenHeld_meet fun C I hF => match h C I hF with | .leaf ht => ht)
  | .variable _ _, _ => .hole
  | .list _, h => .list fun t ht =>
    templateHeld_meet t fun C I hF => match h C I hF with | .list hts => hts t ht
  | .repeated _ t, h => .repeated
    (templateHeld_meet t fun C I hF => match h C I hF with | .repeated ht => ht)

theorem scopeHeld_meet {scope : Scope} (h : ∀ C I, F C I → (confined C I).ScopeHeld e scope) :
    (confined (CommonObjects F) (CommonStates F)).ScopeHeld e scope :=
  fun b hb => held_meet fun C I hF => h C I hF b hb

theorem storeHeld_meet {M : Machine σ} {s : Store σ}
    (h : ∀ C I, F C I → (confined C I).StoreHeld M s) :
    (confined (CommonObjects F) (CommonStates F)).StoreHeld M s where
  bindings := scopeHeld_meet fun C I hF => (h C I hF).bindings
  functions f hf := by
    have hbody : ∀ C I, F C I → (confined C I).BodyHeld s.extent f.body :=
      fun C I hF => (h C I hF).functions f hf
    cases hb : f.body with
    | closure c =>
      simp only [hb] at hbody
      exact ⟨fun n hn => nodeHeld_meet n fun C I hF => (hbody C I hF).1 n hn,
        scopeHeld_meet fun C I hF => (hbody C I hF).2⟩
    | _ => trivial
  transformers x hx := by
    have hform : ∀ C I, F C I → (confined C I).ExpanderHeld s.extent x.expander :=
      fun C I hF => (h C I hF).transformers x hx
    cases hk : x.expander with
    | userDefined u =>
      simp only [hk] at hform
      exact ⟨fun c hc => templateHeld_meet _ fun C I hF => (hform C I hF).1 c hc,
        Or.inr fun _ => trivial⟩
    | _ => trivial
  core := ⟨nofun, nofun, nofun, nofun⟩
  host C I hF := (h C I hF).host

end Meet

/-- The objects that the evaluation of a forest can come by: those in every set that encloses it. -/
def Machine.Obtainable (M : Machine σ) (forest : Forest) (s : Store σ) : Object → Prop :=
  CommonObjects (M.Encloses forest s)

/-- The states of the embedding program that the evaluation of a forest can come to. -/
def Machine.Arising (M : Machine σ) (forest : Forest) (s : Store σ) : σ → Prop :=
  CommonStates (M.Encloses forest s)

/-- The obtainable objects and the arising states enclose the evaluation themselves. -/
theorem Machine.encloses_obtainable (M : Machine σ) (forest : Forest) (s : Store σ) :
    M.Encloses forest s (M.Obtainable forest s) (M.Arising forest s) where
  host := confines_meet fun _ _ h => h.host
  store := storeHeld_meet fun _ _ h => h.store
  forest n hn := nodeHeld_meet n fun _ _ h => h.forest n hn

end LittleLisp
