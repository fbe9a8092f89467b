/-
# What the derived rules let through

A rule looks at an argument from the outside only: it lets every list through to a parameter that
is a slice or an array. What becomes of the argument depends on the parts as well. A value fits a
type if its parts have, at any depth, the sorts that the type calls for; and then its conversion
succeeds, with two exceptions. There is no conversion to an array, although the rule for arrays
admits lists and `nil`; and none of maps to any type of maps but that from values to values,
although the rule for maps admits them. Where one of these is in the way, the call ends with a
fault about the argument and the body of the method is not entered.

Key definitions: `HostType.isData`, `HostValue.Fits`, `HostValue.Blocked`.
Key theorems: `HostValue.ofItems_eq_mapM`, `HostValue.ofValue_of_fits`,
`HostValue.fits_of_ofValue`, `HostValue.refused_of_blocked`,
`Signature.admitted_arguments_pass`.
-/
import LittleLisp.Proofs.Capability.Confinement
import LittleLisp.Proofs.Crossing.Rules

namespace LittleLisp

variable {σ : Type}

/-- Whether a type is made of numbers, strings, keywords, truth values and values of the language by
slices, arrays and maps. -/
def HostType.isData : HostType → Bool
  | .integer _ => true
  | .float32 => true
  | .float64 => true
  | .string _ => true
  | .bool => true
  | .slice elem => elem.isData
  | .array _ elem => elem.isData
  | .map key elem => key.isData && elem.isData
  | .interface i => i == .value
  | .own t => t == .keyword
  | _ => false

namespace HostValue

variable {H : HostTypes} {L : Legend} {t : HostType} {v : Value} {x : HostValue}

/-! ### Lists -/

theorem ofItems_eq_mapM (t : HostType) : ∀ items : List Value,
    ofItems H L items t = items.mapM fun v => ofValue H L v t
  | [] => rfl
  | v :: vs => by rw [ofItems, ofItems_eq_mapM t vs, List.mapM_cons]

/-- A list becomes a slice exactly if every item becomes one of its elements. -/
theorem exists_ofItems_iff {items : List Value} :
    (∃ xs, ofItems H L items t = .ok xs) ↔ ∀ v ∈ items, ∃ x, ofValue H L v t = .ok x := by
  rw [ofItems_eq_mapM]
  exact exists_except_mapM_iff

theorem ofValue_slice (elem : HostType) (s : Nat) (items : List Value) :
    ofValue H L (.list s items) (.slice elem) = (ofItems H L items elem).map .list := by
  rw [ofValue]
  cases ofItems H L items elem <;> rfl

theorem exists_ofValue_slice_iff {elem : HostType} {s : Nat} {items : List Value} :
    (∃ x, ofValue H L (.list s items) (.slice elem) = .ok x) ↔
      ∀ v ∈ items, ∃ x, ofValue H L v elem = .ok x := by
  rw [← exists_ofItems_iff, ofValue_slice]
  cases ofItems H L items elem <;> simp [Except.map]

/-! ### Fitting values -/

variable (H) in
/-- The parts of a value are, at any depth, of the sorts that a type calls for, as if there were a
conversion to every type of data. An array calls for as many items as it has elements. -/
inductive Fits : HostType → Value → Prop where
  | integer (i : IntType) (x : Float) : Fits (.integer i) (.number x)
  | opaqueInteger (n : Int) : Fits .int (.atom (.integer n))
  | float32 (x : Float) : Fits .float32 (.number x)
  | float64 (x : Float) : Fits .float64 (.number x)
  | string (name s : Text) : Fits (.string name) (.string s)
  | keyword (name k : Text) : Fits (.string name) (.keyword k)
  | ownString (s : Text) : Fits (.own .keyword) (.string s)
  | ownKeyword (k : Text) : Fits (.own .keyword) (.keyword k)
  | bool (b : Bool) : Fits .bool (.bool b)
  | value (v : Value) : Fits .value v
  | vacant (t : HostType) : Fits t (.atom .vacant)
  | nilSlice (elem : HostType) : Fits (.slice elem) .nil
  | nilMap (key elem : HostType) : Fits (.map key elem) .nil
  | nilArray (elem : HostType) : Fits (.array 0 elem) .nil
  | slice {elem : HostType} {s : Nat} {items : List Value} (h : ∀ v ∈ items, Fits elem v) :
      Fits (.slice elem) (.list s items)
  | array {elem : HostType} {s : Nat} {items : List Value} (h : ∀ v ∈ items, Fits elem v) :
      Fits (.array items.length elem) (.list s items)
  | map {key elem : HostType} {s : Nat} {entries : Entries}
      (hkeys : ∀ e ∈ entries, Fits key (.atom e.1)) (h : ∀ e ∈ entries, Fits elem e.2) :
      Fits (.map key elem) (.map s entries)
  /-- An object with a host value of the type behind it. -/
  | object {t : HostType} {o : Object} {h : Handle} (ho : o.handle? = some h)
      (ht : h.type.assignable H t = true) : Fits t (.object o)

/-- A part of a value stands for an array, or is a map that stands for one of another type than
that from values to values. -/
inductive Blocked : HostType → Value → Prop where
  | array (n : Nat) (elem : HostType) (s : Nat) (items : List Value) :
      Blocked (.array n elem) (.list s items)
  | nilArray (n : Nat) (elem : HostType) : Blocked (.array n elem) .nil
  | map {key elem : HostType} (h : HostType.map key elem ≠ .map .value .value) (s : Nat)
      (entries : Entries) : Blocked (.map key elem) (.map s entries)
  | item {elem : HostType} {s : Nat} {items : List Value} {v : Value} (hv : v ∈ items)
      (h : Blocked elem v) : Blocked (.slice elem) (.list s items)

theorem blocked_slice_iff {elem : HostType} {s : Nat} {items : List Value} :
    Blocked (.slice elem) (.list s items) ↔ ∃ v ∈ items, Blocked elem v := by
  refine ⟨fun h => ?_, fun ⟨v, hv, h⟩ => .item hv h⟩
  cases h with
  | item hv h => exact ⟨_, hv, h⟩

/-- A number is never in the way. -/
theorem not_blocked_number (t : HostType) (y : Float) : ¬ Blocked t (.number y) := nofun

/-! ### Conversion succeeds -/

theorem ofValue_value (v : Value) : ofValue H L v .value = .ok (.value v) := by
  cases v <;> rfl

theorem ofValue_atom {a : Atom} (ht : t ≠ .value) : ofValue H L (.atom a) t = ofAtom L a t := by
  rw [ofValue]
  exact ht

theorem ofValue_object {o : Object} (ht : t ≠ .value) :
    ofValue H L (.object o) t = ofObject H L o t := by
  rw [ofValue]
  exact ht

/-- A missing primitive becomes the zero of any type. -/
theorem exists_ofValue_vacant (t : HostType) : ∃ x, ofValue H L (.atom .vacant) t = .ok x := by
  by_cases ht : t = .value
  · rw [ht]
    exact ⟨_, ofValue_value _⟩
  · exact ⟨t.zero, by rw [ofValue_atom ht, ofAtom]⟩

/-- The host value behind an object is passed on where its type allows. -/
theorem exists_ofValue_object {o : Object} {h : Handle} (ho : o.handle? = some h)
    (hassign : h.type.assignable H t = true) : ∃ x, ofValue H L (.object o) t = .ok x := by
  by_cases ht : t = .value
  · rw [ht]
    exact ⟨_, ofValue_value _⟩
  · refine ⟨.handle h, ?_⟩
    rw [ofValue_object ht]
    cases o with
    | hollow => cases ho
    | direct k =>
      cases ho
      simp [ofObject, hassign]
    | reflected k exports =>
      cases ho
      simp [ofObject, hassign]

/-- What fits and is not blocked is converted. -/
theorem ofValue_of_fits (h : Fits H t v) (hb : ¬ Blocked t v) :
    ∃ x, ofValue H L v t = .ok x := by
  induction h with
  | integer i x => exact ⟨_, rfl⟩
  | opaqueInteger n => exact ⟨_, rfl⟩
  | float32 x => exact ⟨_, rfl⟩
  | float64 x => exact ⟨_, rfl⟩
  | string name s => exact ⟨_, rfl⟩
  | keyword name k => exact ⟨_, rfl⟩
  | ownString s => exact ⟨_, rfl⟩
  | ownKeyword k => exact ⟨_, rfl⟩
  | bool b => exact ⟨_, rfl⟩
  | value v => exact ⟨_, ofValue_value v⟩
  | vacant t => exact exists_ofValue_vacant t
  | nilSlice elem => exact ⟨_, rfl⟩
  | nilMap key elem => exact ⟨_, rfl⟩
  | nilArray elem => exact absurd (.nilArray 0 elem) hb
  | slice h ih =>
    -- a blocked item blocks the list
    refine exists_ofValue_slice_iff.mpr fun v hv => ih v hv ?_
    exact fun hblocked => hb (.item hv hblocked)
  | array h => exact absurd (.array _ _ _ _) hb
  | @map key elem s entries hkeys h =>
    by_cases ht : HostType.map key elem = .map .value .value
    · cases ht
      exact ⟨_, rfl⟩
    · exact absurd (.map ht s entries) hb
  | object ho ht => exact exists_ofValue_object ho ht

/-! ### Conversion fails -/

theorem ne_interface (ht : t.isData = true) (hvalue : t ≠ .value) (i : Interface) :
    t ≠ .interface i := by
  rintro rfl
  have hi : i = .value := beq_iff_eq.mp ht
  exact hvalue (by rw [hi])

/-- Of the language's own types, only that of the keywords is a type of data. -/
theorem eq_keyword {o : OwnType} (ht : (HostType.own o).isData = true) : o = .keyword :=
  beq_iff_eq.mp ht

/-- A type of data takes no value as it is, unless it takes all of them or holds the keywords. -/
theorem passed_eq_refuse (ht : t.isData = true) (hvalue : t ≠ .value)
    (hkeyword : t = .own .keyword → ownType? v ≠ some .keyword) :
    passed L v t = refuse L v t := by
  cases t with
  | interface i => exact absurd rfl (ne_interface ht hvalue i)
  | own o =>
    obtain rfl := eq_keyword ht
    rw [passed, if_neg (hkeyword rfl)]
  | _ => rfl

theorem ne_ok_of_refused {y : Except Alarm HostValue} (hy : y = refuse L v t) : y ≠ .ok x := by
  rw [hy]
  exact refuse_ne_ok

theorem fits_of_ofAtom {a : Atom} (ht : t.isData = true) (hvalue : t ≠ .value)
    (h : ofAtom L a t = .ok x) : Fits H t (.atom a) := by
  have hinterface := ne_interface ht hvalue
  cases a with
  | vacant => exact .vacant t
  | nil =>
    by_cases hn : t.isNilable = true
    · cases t with
      | slice elem => exact .nilSlice elem
      | map key elem => exact .nilMap key elem
      | interface i => exact absurd rfl (hinterface i)
      | pointer name => cases ht
      | table name => cases ht
      | function signature => cases ht
      | own o =>
        obtain rfl := eq_keyword ht
        cases hn
      | _ => cases hn
    · rw [ofAtom, if_neg hn, passed_eq_refuse ht hvalue fun _ => by simp [ownType?]] at h
      exact absurd h refuse_ne_ok
  | keyword k =>
    cases t with
    | string name => exact .keyword name k
    | own o =>
      obtain rfl := eq_keyword ht
      exact .ownKeyword k
    | _ =>
      simp only [ofAtom] at h
      rw [passed_eq_refuse ht hvalue nofun] at h
      exact absurd h refuse_ne_ok
  | number y =>
    cases t with
    | integer i => exact .integer i y
    | float32 => exact .float32 y
    | float64 => exact .float64 y
    | interface i => exact absurd rfl (hinterface i)
    | _ =>
      simp only [ofAtom] at h
      exact absurd h refuse_ne_ok
  | integer n =>
    cases t with
    | integer i =>
      cases i with
      | int => exact .opaqueInteger n
      | _ =>
        simp only [ofAtom] at h
        exact absurd h refuse_ne_ok
    | interface i => exact absurd rfl (hinterface i)
    | _ =>
      simp only [ofAtom] at h
      exact absurd h refuse_ne_ok
  | string s =>
    cases t with
    | string name => exact .string name s
    | own o =>
      obtain rfl := eq_keyword ht
      exact .ownString s
    | interface i => exact absurd rfl (hinterface i)
    | _ =>
      simp only [ofAtom] at h
      exact absurd h refuse_ne_ok
  | bool b =>
    cases t with
    | bool => exact .bool b
    | interface i => exact absurd rfl (hinterface i)
    | _ =>
      simp only [ofAtom] at h
      exact absurd h refuse_ne_ok

theorem fits_of_ofObject {o : Object} (ht : t.isData = true) (hvalue : t ≠ .value)
    (h : ofObject H L o t = .ok x) : Fits H t (.object o) := by
  have hpassed : passed L (.object o) t ≠ .ok x := by
    rw [passed_eq_refuse ht hvalue fun _ => by simp [ownType?]]
    exact refuse_ne_ok
  cases o with
  | hollow => cases h
  | direct k =>
    by_cases hassign : k.type.assignable H t = true
    · exact .object rfl hassign
    · rw [ofObject, if_neg hassign] at h
      exact absurd h hpassed
  | reflected k exports =>
    cases k with
    | none => cases h
    | some k =>
      by_cases hassign : k.type.assignable H t = true
      · exact .object rfl hassign
      · rw [ofObject, if_neg hassign] at h
        exact absurd h hpassed

theorem refused_list {s : Nat} {items : List Value} (ht : t.isData = true) (hvalue : t ≠ .value)
    (hslice : ∀ elem, t ≠ .slice elem) :
    ofValue H L (.list s items) t = refuse L (.list s items) t := by
  cases t with
  | slice elem => exact absurd rfl (hslice elem)
  | interface i => exact absurd rfl (ne_interface ht hvalue i)
  | _ => rfl

theorem refused_map {s : Nat} {entries : Entries} (ht : t.isData = true) (hvalue : t ≠ .value)
    (hmap : t ≠ .map .value .value) :
    ofValue H L (.map s entries) t = refuse L (.map s entries) t := by
  rw [ofValue, if_neg]
  · rintro (rfl | rfl)
    · exact hmap rfl
    · exact ne_interface ht hvalue .any rfl
  · exact hvalue

/-- What is converted fits, given that this holds of lists that become slices. -/
theorem fits_of_parts (ht : t.isData = true) (h : ofValue H L v t = .ok x)
    (hslice : ∀ elem s items, t = .slice elem → v = .list s items → Fits H t v) :
    Fits H t v := by
  by_cases hvalue : t = .value
  · rw [hvalue]
    exact .value v
  cases v with
  | atom a =>
    rw [ofValue_atom hvalue] at h
    exact fits_of_ofAtom ht hvalue h
  | object o =>
    rw [ofValue_object hvalue] at h
    exact fits_of_ofObject ht hvalue h
  | list s items =>
    by_cases hs : ∃ elem, t = .slice elem
    · obtain ⟨elem, helem⟩ := hs
      exact hslice elem s items helem rfl
    · rw [refused_list ht hvalue fun elem helem => hs ⟨elem, helem⟩] at h
      exact absurd h refuse_ne_ok
  | map s entries =>
    by_cases hmap : t = .map .value .value
    · rw [hmap]
      exact .map (fun e _ => .value _) fun e _ => .value _
    · rw [refused_map ht hvalue hmap] at h
      exact absurd h refuse_ne_ok
  | absent =>
    rw [ofValue] at h
    · exact absurd h refuse_ne_ok
    · exact hvalue
  | _ =>
    rw [ofValue, passed_eq_refuse ht hvalue fun _ => by simp [ownType?]] at h
    · exact absurd h refuse_ne_ok
    · exact hvalue

/-- Only what fits is converted. -/
theorem fits_of_ofValue : ∀ {t : HostType}, t.isData = true → ∀ {v : Value} {x : HostValue},
    ofValue H L v t = .ok x → Fits H t v := by
  intro t
  induction t with
  | slice elem ih =>
    intro ht v x h
    refine fits_of_parts ht h ?_
    rintro elem s items ⟨⟩ rfl
    refine .slice fun v hv => ?_
    obtain ⟨y, hy⟩ := exists_ofValue_slice_iff.mp ⟨x, h⟩ v hv
    exact ih ht hy
  | _ => exact fun ht _ _ h => fits_of_parts ht h nofun

/-- What is blocked is not converted. -/
theorem ofValue_ne_ok_of_blocked (hb : Blocked t v) :
    ∀ {x : HostValue}, t.isData = true → ofValue H L v t ≠ .ok x := by
  induction hb with
  | array n elem s items =>
    intro x ht
    exact ne_ok_of_refused (refused_list ht nofun nofun)
  | nilArray n elem =>
    intro x _
    have hnil : ofValue H L .nil (.array n elem) = refuse L .nil (.array n elem) := rfl
    rw [hnil]
    exact refuse_ne_ok
  | map hmap s entries =>
    intro x ht
    exact ne_ok_of_refused (refused_map ht nofun hmap)
  | @item elem s items v hv _ ih =>
    intro x ht h
    obtain ⟨y, hy⟩ := exists_ofValue_slice_iff.mp ⟨x, h⟩ v hv
    exact ih ht hy

/-- The refusal of a value that can be printed. -/
theorem refuse_eq {text : Text} (h : v.plainText L = .ok text) :
    refuse L v t =
      .error (.fault (.unplaced .argument ["cannot use ", text, " as ", t.spelling])) := by
  rw [refuse, h]

/-- The refusal of a value that fits tells which part is in the way. -/
theorem refused_of_blocked (hf : Fits H t v) :
    t.isData = true → Blocked t v → ∃ u w text, Blocked u w ∧ w.plainText L = .ok text ∧
      ofValue H L v t =
        .error (.fault (.unplaced .argument ["cannot use ", text, " as ", u.spelling])) := by
  induction hf with
  | nilArray elem =>
    exact fun _ hb => ⟨_, _, "nil", hb, rfl, rfl⟩
  | @array elem s items h =>
    intro ht hb
    refine ⟨_, _, _, hb, rfl, ?_⟩
    rw [refused_list ht nofun nofun]
    exact refuse_eq rfl
  | @map key elem s entries hkeys h =>
    intro ht hb
    refine ⟨_, _, _, hb, rfl, ?_⟩
    cases hb with
    | map hmap =>
      rw [refused_map ht nofun hmap]
      exact refuse_eq rfl
  | @slice elem s items h ih =>
    intro ht hb
    have herror := ofValue_slice (H := H) (L := L) elem s items
    cases hxs : ofItems H L items elem with
    | ok xs =>
      rw [hxs] at herror
      exact absurd herror (ofValue_ne_ok_of_blocked hb ht)
    | error a =>
      rw [hxs] at herror
      rw [ofItems_eq_mapM] at hxs
      obtain ⟨v, hv, hva⟩ := exists_of_except_mapM_error hxs
      -- the item that stopped the conversion fits, so it has to be blocked
      have hblocked : Blocked elem v := by
        by_contra hfree
        obtain ⟨x, hx⟩ := ofValue_of_fits (L := L) (h v hv) hfree
        rw [hx] at hva
        cases hva
      obtain ⟨u, w, text, hu, htext, he⟩ := ih v hv ht hblocked
      exact ⟨u, w, text, hu, htext, herror.trans (hva.symm.trans he)⟩
  | _ =>
    intro _ hb
    cases hb

end HostValue

namespace Signature

open HostValue

/-! ### Calls -/

variable {H : HostTypes} {ts : List HostType} {args : List Value}

/-- What is known of each argument and its type is known at every step of the conversion. -/
theorem of_mem_zipIdx {R : HostType → Value → Prop} (h : List.Forall₂ R ts args)
    {e : (HostType × Value) × Nat} (he : e ∈ (ts.zip args).zipIdx) :
    (ts.zip args)[e.2]? = some e.1 ∧ R e.1.1 e.1.2 := by
  have hget := List.mem_zipIdx_iff_getElem?.mp he
  exact ⟨hget, (List.forall₂_iff_zip.mp h).2 (List.mem_of_getElem? hget)⟩

/-- Arguments that fit and are not blocked are converted. -/
theorem converted_of_free (L : Legend) (name : Text) (hfits : List.Forall₂ (Fits H) ts args)
    (hfree : ∀ p ∈ ts.zip args, ¬ Blocked p.1 p.2) :
    ∃ xs, converted H L name ts args = .ok xs := by
  refine exists_except_mapM_iff.mpr fun e he => ?_
  obtain ⟨hget, hfit⟩ := of_mem_zipIdx hfits he
  obtain ⟨x, hx⟩ := ofValue_of_fits (L := L) hfit (hfree e.1 (List.mem_of_getElem? hget))
  exact ⟨x, by rw [hx]; rfl⟩

/-- If one of the arguments is blocked, the call is refused for such a one. -/
theorem converted_of_blocked (L : Legend) (name : Text) (hdata : ∀ t ∈ ts, t.isData = true)
    (hfits : List.Forall₂ (Fits H) ts args) {p : HostType × Value} (hp : p ∈ ts.zip args)
    (hb : Blocked p.1 p.2) :
    ∃ i t v u w text, (ts.zip args)[i]? = some (t, v) ∧ Blocked t v ∧ Blocked u w ∧
      w.plainText L = .ok text ∧
      converted H L name ts args = .error (.fault (.unplaced .argument
        [name, ": argument ", Text.ofNat (i + 1), ": ",
          Text.concat ["cannot use ", text, " as ", u.spelling]])) := by
  have hdata' {e : HostType × Value} (he : e ∈ ts.zip args) : e.1.isData = true :=
    hdata _ (List.of_mem_zip he).1
  cases hxs : converted H L name ts args with
  | ok xs =>
    obtain ⟨i, hi⟩ := List.mem_iff_getElem?.mp hp
    have hpi : (p, i) ∈ (ts.zip args).zipIdx := List.mem_zipIdx_iff_getElem?.mpr hi
    obtain ⟨y, hy⟩ := exists_except_mapM_iff.mp ⟨xs, hxs⟩ (p, i) hpi
    cases hx : ofValue H L p.2 p.1 with
    | ok x => exact absurd hx (ofValue_ne_ok_of_blocked hb (hdata' hp))
    | error a =>
      rw [hx] at hy
      cases hy
  | error a =>
    obtain ⟨e, he, hea⟩ := exists_of_except_mapM_error hxs
    obtain ⟨hget, hfit⟩ := of_mem_zipIdx hfits he
    have hblocked : Blocked e.1.1 e.1.2 := by
      by_contra hfree
      obtain ⟨x, hx⟩ := ofValue_of_fits (L := L) hfit hfree
      rw [hx] at hea
      cases hea
    obtain ⟨u, w, text, hu, htext, hrefused⟩ := refused_of_blocked (L := L) hfit
      (hdata' (List.mem_of_getElem? hget)) hblocked
    refine ⟨e.2, e.1.1, e.1.2, u, w, text, hget, hblocked, hu, htext, ?_⟩
    rw [hrefused] at hea
    cases hea
    rfl

/-- **What the derived rules let through is passed on, unless it is blocked.** A value is converted
to a type of data exactly if it fits and no part of it stands for an array or for a map of a type
of its own. A call with validated arguments that fit then gets to the body of the method, or else is
refused for an argument that is blocked. -/
theorem admitted_arguments_pass (H : Host σ) (L : Legend) :
    (∀ t v, t.isData = true →
      ((∃ x, ofValue H.types L v t = .ok x) ↔ Fits H.types t v ∧ ¬ Blocked t v)) ∧
    ∀ (m : ReflectedMethod σ) (name : Text) (receiver : Handle) (args : List Value) (s : σ),
      m.signature.rules.check L args = .ok none →
      ∃ ts, m.signature.Takes ts ∧ List.Forall₂ HostType.Admits ts args ∧
        ((∀ t ∈ ts, t.isData = true) → List.Forall₂ (Fits H.types) ts args →
          ((∀ p ∈ ts.zip args, ¬ Blocked p.1 p.2) → ∃ xs,
            converted H.types L name ts args = .ok xs ∧
            H.callReflected name receiver m L args s =
              Host.callReflected.finish H name m (m.body receiver xs s)) ∧
          ((∃ p ∈ ts.zip args, Blocked p.1 p.2) → ∃ i t v u w text,
            (ts.zip args)[i]? = some (t, v) ∧ Blocked t v ∧ Blocked u w ∧
            w.plainText L = .ok text ∧
            H.callReflected name receiver m L args s = .done s (.fail .argument
              [name, ": argument ", Text.ofNat (i + 1), ": ",
                Text.concat ["cannot use ", text, " as ", u.spelling]]))) := by
  refine ⟨fun t v ht => ?_, fun m name receiver args s hvalid => ?_⟩
  · refine ⟨fun ⟨x, hx⟩ => ?_, fun ⟨hfits, hfree⟩ => ofValue_of_fits hfits hfree⟩
    exact ⟨fits_of_ofValue ht hx, fun hb => ofValue_ne_ok_of_blocked hb ht hx⟩
  · obtain ⟨ts, hts, hadmits⟩ := check_eq_none_iff.mp hvalid
    have hcall := callReflected_eq H name receiver L s hts hadmits.length_eq
    refine ⟨ts, hts, hadmits, fun hdata hfits => ⟨fun hfree => ?_, ?_⟩⟩
    · obtain ⟨xs, hxs⟩ := converted_of_free L name hfits hfree
      exact ⟨xs, hxs, by rw [hcall, hxs]⟩
    · rintro ⟨p, hp, hb⟩
      obtain ⟨i, t, v, u, w, text, hi, hv, hu, htext, hxs⟩ :=
        converted_of_blocked L name hdata hfits hp hb
      exact ⟨i, t, v, u, w, text, hi, hv, hu, htext, by rw [hcall, hxs]; rfl⟩

/-- A list of two numbers is passed on in a slice of slices, but not as an array. -/
theorem admitted_arguments_pass_for_pairs :
    let L := (Sample.session .default).store.legend Sample.host
    let first := Sample.computing [.array 2 .int] .int fun args => args.head?.getD .nothing
    let pair : Value := .list 0 [.number 1, .number 2]
    (∃ x, ofValue Sample.host.types L (.list 0 [.nil, pair]) (.slice (.slice .int)) = .ok x) ∧
    first.signature.rules.check L [pair] = .ok none ∧
    ∃ message, Sample.host.callReflected "Arr" Sample.kit first L [pair] .initial =
      .done .initial (.fail .argument message) := by
  intro L first pair
  obtain ⟨hvalues, hcalls⟩ := admitted_arguments_pass Sample.host L
  have hnumbers : ∀ v ∈ [Value.number 1, .number 2], Fits Sample.host.types .int v :=
    List.forall_mem_cons.mpr ⟨.integer .int 1, List.forall_mem_singleton.mpr (.integer .int 2)⟩
  have hpairs : ∀ v ∈ [.nil, pair], Fits Sample.host.types (.slice .int) v :=
    List.forall_mem_cons.mpr ⟨.nilSlice .int, List.forall_mem_singleton.mpr (.slice hnumbers)⟩
  have hvalid : first.signature.rules.check L [pair] = .ok none := rfl
  refine ⟨(hvalues _ _ rfl).mpr ⟨.slice hpairs, ?_⟩, hvalid, ?_⟩
  · have hnil : ¬ Blocked (.slice .int) .nil := nofun
    simp [pair, blocked_slice_iff, not_blocked_number, hnil]
  · obtain ⟨ts, hts, -, hcall⟩ := hcalls first "Arr" Sample.kit [pair] .initial hvalid
    cases hts with
    | variadic h => cases h
    | fixed =>
      have hdata : ∀ t ∈ first.signature.params, t.isData = true := by
        simp [first, Sample.computing, HostType.isData]
      have hblocked : ∃ p ∈ first.signature.params.zip [pair], Blocked p.1 p.2 :=
        ⟨(.array 2 .int, pair), List.mem_singleton.mpr rfl, .array 2 .int 0 _⟩
      obtain ⟨i, t, v, u, w, text, -, -, -, -, hrefused⟩ :=
        (hcall hdata (.cons (.array hnumbers) .nil)).2 hblocked
      exact ⟨_, hrefused⟩

end Signature

end LittleLisp
