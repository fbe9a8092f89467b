/-
# Policies and data

What is computed from values that may be held may be held again: the built-in functions
pass on parts of their arguments, and quoting a tree makes data of its tokens. Printing
can fail only on a value that may be held, so only with an alarm that may be raised.

Key definitions: `Policy.Answers`.
Key theorems: `Policy.answers_builtin`, `Policy.held_datum`, `Policy.keeps_settled`.
-/
import LittleLisp.Proofs.Policy

namespace LittleLisp

/-! ### Entries and stamps -/

namespace Entries

/-- Binding a key brings in no other value. -/
theorem mem_insert {k : Atom} {v : Value} {x : Atom × Value} :
    ∀ {es : Entries}, x ∈ es.insert k v → x.2 = v ∨ x ∈ es
  | [], h => by
    have hx : x = (k, v) := by simpa [insert] using h
    exact Or.inl (by rw [hx])
  | (k', w) :: rest, h => by
    unfold insert at h
    split at h
    · rcases List.mem_cons.mp h with rfl | hr
      · exact Or.inl rfl
      · exact Or.inr (List.mem_cons_of_mem _ hr)
    · rcases List.mem_cons.mp h with rfl | hr
      · exact Or.inr List.mem_cons_self
      · exact (mem_insert hr).imp id (List.mem_cons_of_mem _)

/-- What a key is bound to stands in the entries. -/
theorem mem_of_find? {k : Atom} {v : Value} :
    ∀ {es : Entries}, es.find? k = some v → ∃ x ∈ es, x.2 = v
  | (k', w) :: rest, h => by
    unfold find? at h
    split at h
    · exact ⟨(k', w), List.mem_cons_self, Option.some.inj h⟩
    · obtain ⟨x, hx, hv⟩ := mem_of_find? h
      exact ⟨x, List.mem_cons_of_mem _ hx, hv⟩

end Entries

namespace Value

variable {p : Value → Prop}

/-- A stamp makes no difference. -/
theorem Every.stamped {v : Value} (h : Every p v) (n : Nat) : Every p (v.stamped n).1 := by
  unfold Value.stamped
  split
  · split
    · exact .list (every_list.mp h)
    · exact .map (every_map.mp h)
    · exact h
  · exact h

theorem every_settledItems : ∀ (items : List Value) (n : Nat),
    (∀ v ∈ items, ∀ n, Every p (v.settled n).1) → ∀ v ∈ (settledItems items n).1, Every p v
  | [], _, _, _, hv => by simp [settledItems] at hv
  | w :: ws, n, h, v, hv => by
    rcases List.mem_cons.mp hv with rfl | hv
    · exact h w List.mem_cons_self n
    · exact every_settledItems ws _ (fun u hu => h u (List.mem_cons_of_mem _ hu)) v hv

theorem every_settledEntries : ∀ (entries : Entries) (n : Nat),
    (∀ x ∈ entries, ∀ n, Every p (x.2.settled n).1) →
      ∀ x ∈ (settledEntries entries n).1, Every p x.2
  | [], _, _, _, hx => by simp [settledEntries] at hx
  | y :: ys, n, h, x, hx => by
    rcases List.mem_cons.mp hx with rfl | hx
    · exact h y List.mem_cons_self n
    · exact every_settledEntries ys _ (fun u hu => h u (List.mem_cons_of_mem _ hu)) x hx

/-- Neither do the stamps of everything in a value. -/
theorem Every.settled {v : Value} (h : Every p v) : ∀ n, Every p (v.settled n).1 := by
  induction h with
  | @part v hv h =>
    intro n
    cases v with
    | list _ _ => simp [isPart] at hv
    | map _ _ => simp [isPart] at hv
    | _ => simpa [Value.settled] using Every.part hv h
  | @list stamp items h ih =>
    intro n
    cases stamp with
    | zero =>
      simp only [Value.settled]
      exact (Every.list (every_settledItems items n ih)).stamped _
    | succ k => simpa [Value.settled] using h
  | @map stamp entries h ih =>
    intro n
    cases stamp with
    | zero =>
      simp only [Value.settled]
      exact (Every.map (every_settledEntries entries n ih)).stamped _
    | succ k => simpa [Value.settled] using h

end Value

namespace Policy

variable {σ : Type} {P : Policy σ} {M : Machine σ} {s : Store σ} {e : Extent}

theorem Result.stamped {v : Value} (h : P.Result e v) (n : Nat) : P.Result e (v.stamped n).1 := by
  rcases h with h | ⟨f, rfl, h⟩
  · exact Or.inl (Value.Every.stamped h n)
  · exact Result.fault h

theorem Result.settled {v : Value} (h : P.Result e v) (n : Nat) : P.Result e (v.settled n).1 := by
  rcases h with h | ⟨f, rfl, h⟩
  · exact Or.inl (Value.Every.settled h n)
  · simpa [Value.settled] using Result.fault h

theorem keeps_stamped (hs : P.StoreHeld M s) {v : Value} (hv : P.Result s.extent v) :
    P.Keeps M P.Result s.extent (Action.stamped v s) :=
  keeps_update le_rfl (hs.withStamps _) (hv.stamped _)

theorem keeps_stamped_list (hs : P.StoreHeld M s) {vs : List Value}
    (hvs : ∀ v ∈ vs, P.Held s.extent v) :
    P.Keeps M P.Held s.extent (Action.stamped (.list 0 vs) s) :=
  keeps_update le_rfl (hs.withStamps _) (Value.Every.stamped (.list hvs) _)

theorem keeps_settled (hs : P.StoreHeld M s) {v : Value} (hv : P.Result s.extent v) :
    P.Keeps M P.Result s.extent (Action.settled v s) :=
  keeps_update le_rfl (hs.withStamps _) (hv.settled _)

/-! ### Printing -/

variable (hP : P.Admits M)

include hP

theorem raises_of_described {v : Value} {L : Legend} {message : Text} (hv : P.Held e v)
    (h : v.described L = .error message) : P.raises (.native message) := by
  cases v with
  | absent => simp [Value.described] at h
  | _ => exact hP.printing hv (by simpa [Value.described] using h)

omit hP in
/-- Some trees fail to print with the first one that does. -/
theorem raises_of_texts {L : Legend} {message : Text} : ∀ {ns : List Node},
    (∀ n ∈ ns, n.text L = .error message → P.raises (.native message)) →
      Node.texts L ns = .error message → P.raises (.native message)
  | [], _, h => by simp [Node.texts] at h
  | n :: ns, ih, h => by
    unfold Node.texts at h
    rcases except_bind_eq_error.mp h with h | ⟨_, _, h⟩
    · exact ih n List.mem_cons_self h
    · rcases except_bind_eq_error.mp h with h | ⟨_, _, h⟩
      · exact raises_of_texts (fun m hm => ih m (List.mem_cons_of_mem _ hm)) h
      · simp [pure, Except.pure] at h

/-- A tree that cannot be printed holds a value that cannot be printed. -/
theorem raises_of_text {n : Node} {L : Legend} {message : Text} (hn : P.NodeHeld e n)
    (h : n.text L = .error message) : P.raises (.native message) := by
  induction hn with
  | absent => simp [Node.text] at h
  | @leaf t ht =>
    unfold Node.text at h
    split at h
    · simp at h
    · split at h
      · simp at h
      · rcases ht with ⟨_, name, hname⟩ | ht
        · rw [hname] at h
          simp [Value.text] at h
        · exact hP.printing ht h
  | @form ns _ ih =>
    unfold Node.text at h
    rcases except_bind_eq_error.mp h with h | ⟨_, _, h⟩
    · exact raises_of_texts ih h
    · simp [pure, Except.pure] at h

/-! ### Trees as data -/

theorem held_datum {n : Node} (hn : P.NodeHeld e n) : P.Held e n.datum := by
  induction hn with
  | absent => exact held_atom hP _
  | @leaf t ht =>
    unfold Node.datum
    split
    · exact held_atom hP _
    · rename_i hid
      rcases ht with ⟨hid', _⟩ | ht
      · exact absurd hid' hid
      · exact ht.orNil hP
  | @form ns _ ih =>
    unfold Node.datum
    refine .list ?_
    clear * - ih
    induction ns with
    | nil => simp [Node.data]
    | cons n ns ihs =>
      intro v hv
      rcases List.mem_cons.mp (by simpa [Node.data] using hv : v ∈ n.datum :: Node.data ns)
        with rfl | hv
      · exact ih n List.mem_cons_self
      · exact ihs (fun m hm => ih m (List.mem_cons_of_mem _ hm)) v hv

/-! ### Built-in functions -/

omit hP in
/-- What a built-in function may answer: a result, or a failure that may interrupt the
evaluation. -/
def Answers (P : Policy σ) (e : Extent) : Builtin.Result → Prop
  | .ok v => P.Result e v
  | .error message => P.raises (.native message)

/-- A fault whose message mentions a value. -/
theorem answers_mention {L : Legend} {v : Value} (hv : P.Held e v) {kind : FaultKind}
    (hk : kind ≠ .native) (message : Text → List Text) :
    P.Answers e (do
      let t ← v.described L
      return Value.fail kind (message t)) := by
  cases h : v.described L with
  | ok t => exact result_fail hP hk _
  | error m => exact raises_of_described hP hv h

/-- A function goes on with enough arguments, and with no more than it takes. -/
theorem answers_withArity {name : Text} {args : List Value} {least : Nat} {most : Option Nat}
    {k : Builtin.Result}
    (hk : least ≤ args.length → (∀ m, most = some m → args.length ≤ m) → P.Answers e k) :
    P.Answers e (Builtin.withArity name args least most k) := by
  rcases Builtin.withArity_cases name args least most k with ⟨h, hleast, hmost⟩ | ⟨message, h⟩
  · rw [h]
    exact hk hleast hmost
  · rw [h]
    exact result_fail hP (by decide) message

omit hP in
/-- To read an item is no failure where there is one. -/
theorem answers_item {α : Type} {xs : List α} {i : Nat} (hi : i < xs.length)
    {k : α → Builtin.Result} (hk : ∀ x ∈ xs, P.Answers e (k x)) :
    P.Answers e (do
      let x ← Slice.item xs i
      k x) := by
  rw [Slice.item_of_lt hi]
  exact hk _ (List.getElem_mem hi)

omit hP in
/-- Neither is to cut a list where it lasts. -/
theorem answers_after {α : Type} {xs : List α} {i : Nat} (hi : i ≤ xs.length)
    {k : List α → Builtin.Result} (hk : P.Answers e (k (xs.drop i))) :
    P.Answers e (do
      let ys ← Slice.after xs i
      k ys) := by
  rw [Slice.after_of_le hi]
  exact hk

omit hP in
theorem answers_argument {args : List Value} {i : Nat} (hi : i < args.length)
    (hargs : ∀ v ∈ args, P.Held e v) : P.Answers e (Slice.item args i) := by
  rw [Slice.item_of_lt hi]
  exact Or.inl (hargs _ (List.getElem_mem hi))

omit hP in
/-- The first argument that is no number is one of the arguments. -/
theorem mem_of_numbers {v : Value} {i : Nat} : ∀ {vs : List Value} {j : Nat},
    Builtin.numbers j vs = .error (i, v) → v ∈ vs
  | [], _, h => by simp [Builtin.numbers] at h
  | w :: ws, j, h => by
    unfold Builtin.numbers at h
    split at h
    · simp only [Except.error.injEq, Prod.mk.injEq] at h
      simp [h.2]
    · split at h
      · simp at h
      · rename_i hr
        rw [Except.error.inj h] at hr
        exact List.mem_cons_of_mem _ (mem_of_numbers hr)

theorem answers_withNumbers {L : Legend} {name : Text} {args : List Value}
    {k : List Float → Builtin.Result} (hargs : ∀ v ∈ args, P.Held e v)
    (hk : ∀ xs, xs.length = args.length → P.Answers e (k xs)) :
    P.Answers e (Builtin.withNumbers L name args k) := by
  unfold Builtin.withNumbers
  split
  · rename_i xs h
    exact hk xs (Builtin.length_numbers h)
  · rename_i i v h
    exact answers_mention hP (hargs v (mem_of_numbers h)) (by decide) _

theorem answers_withList {L : Legend} {name : Text} {v : Value} {k : List Value → Builtin.Result}
    (hv : P.Held e v) (hk : ∀ items, (∀ w ∈ items, P.Held e w) → P.Answers e (k items)) :
    P.Answers e (Builtin.withList L name v k) := by
  unfold Builtin.withList
  split
  · exact hk [] (by simp)
  · exact hk _ (Value.every_list.mp hv)
  · exact answers_mention hP hv (by decide) _

omit hP in
/-- Pairs that are added to entries bring in no other values, and a refused key is one of them. -/
theorem held_addPairs : ∀ {pairs : List Value} {i : Nat} {es : Entries},
    (∀ v ∈ pairs, P.Held e v) → (∀ x ∈ es, P.Held e x.2) →
      (∀ es', Builtin.addPairs i es pairs = .ok (.ok es') → ∀ x ∈ es', P.Held e x.2) ∧
        ∀ k, Builtin.addPairs i es pairs = .ok (.error k) → P.Held e k
  | [], i, es, _, hes => by simpa [Builtin.addPairs] using hes
  | [k], i, es, hpairs, hes => by
    have hk : P.Held e k := hpairs k List.mem_cons_self
    unfold Builtin.addPairs
    split_ifs
    · simp
    · simpa using hk
  | k :: v :: more, i, es, hpairs, hes => by
    have hmore : ∀ w ∈ more, P.Held e w := fun w hw => hpairs w (by simp [hw])
    cases k with
    | atom a =>
      have hwritten : ∀ x ∈ es.insert a v, P.Held e x.2 := by
        intro x hx
        rcases Entries.mem_insert hx with hx | hx
        · exact hx ▸ hpairs v (by simp)
        · exact hes x hx
      exact held_addPairs (i := i + 2) hmore hwritten
    | _ =>
      refine ⟨by simp [Builtin.addPairs, Value.isKey], fun k hk => ?_⟩
      have hk' := Except.error.inj (Except.ok.inj hk)
      exact hk' ▸ hpairs _ List.mem_cons_self

theorem answers_withPairs {L : Legend} {name : Text} {i : Nat} {es : Entries} {pairs : List Value}
    (heven : pairs.length % 2 = 0) (hpairs : ∀ v ∈ pairs, P.Held e v)
    (hes : ∀ x ∈ es, P.Held e x.2) : P.Answers e (Builtin.withPairs L name i es pairs) := by
  obtain ⟨hok, herr⟩ := held_addPairs (i := i) hpairs hes
  obtain ⟨r, hr⟩ := Builtin.exists_addPairs pairs i es heven
  unfold Builtin.withPairs
  rw [hr, except_ok_bind]
  cases r with
  | ok es' => exact Or.inl (.map (hok es' hr))
  | error k => exact answers_mention hP (herr k hr) (by decide) _

theorem answers_getFrom {L : Legend} {coll key default : Value} (hcoll : P.Held e coll)
    (hdefault : P.Held e default) : P.Answers e (Builtin.getFrom L coll key default) := by
  unfold Builtin.getFrom
  split
  · exact Or.inl hdefault
  · rename_i stamp es
    split_ifs with hkey
    · cases key with
      | atom a =>
        rw [Entries.read, except_ok_bind]
        cases hf : Entries.find? a es with
        | none => exact Or.inl hdefault
        | some v =>
          obtain ⟨x, hx, rfl⟩ := Entries.mem_of_find? hf
          exact Or.inl (Value.every_map.mp hcoll x hx)
      | _ => simp [Value.isKey] at hkey
    · exact Or.inl hdefault
  · split
    · split_ifs with hi
      · exact answers_argument hi (Value.every_list.mp hcoll)
      · exact Or.inl hdefault
    · exact Or.inl hdefault
  · exact answers_mention hP hcoll (by decide) _

theorem answers_countOf {L : Legend} {v : Value} (hv : P.Held e v) :
    P.Answers e (Builtin.countOf L v) := by
  unfold Builtin.countOf
  split
  · exact Or.inl (held_atom hP _)
  · exact Or.inl (held_atom hP _)
  · exact Or.inl (held_atom hP _)
  · exact Or.inl (held_atom hP _)
  · exact answers_mention hP hv (by decide) _

theorem raises_of_strTexts {L : Legend} {message : Text} : ∀ {vs : List Value},
    (∀ v ∈ vs, P.Held e v) → Builtin.strTexts L vs = .error message → P.raises (.native message)
  | [], _, h => by simp [Builtin.strTexts] at h
  | v :: vs, hvs, h => by
    have hrest : ∀ {t : Text}, (do
        let ts ← Builtin.strTexts L vs
        return t ++ ts : Except Text Text) = .error message → P.raises (.native message) := by
      intro t h
      rcases except_bind_eq_error.mp h with h | ⟨_, _, h⟩
      · exact raises_of_strTexts (fun w hw => hvs w (List.mem_cons_of_mem _ hw)) h
      · simp [pure, Except.pure] at h
    unfold Builtin.strTexts at h
    dsimp only at h
    split at h
    · exact hrest h
    · exact hrest h
    · rcases except_bind_eq_error.mp h with h | ⟨_, _, h⟩
      · exact hP.printing (hvs v List.mem_cons_self) h
      · exact hrest h

/-- Functions of one argument read it once it is there. -/
theorem answers_unary {name : Text} {args : List Value} {k : Value → Builtin.Result}
    (hargs : ∀ v ∈ args, P.Held e v) (hk : ∀ v, P.Held e v → P.Answers e (k v)) :
    P.Answers e (Builtin.withArity name args 1 (some 1) do
      let v ← Slice.item args 0
      k v) :=
  answers_withArity hP fun hleast _ =>
    answers_item (i := 0) hleast fun v hv => hk v (hargs v hv)

theorem answers_comparison {L : Legend} {name : Text} {r : Float → Float → Bool}
    {args : List Value} (hargs : ∀ v ∈ args, P.Held e v) :
    P.Answers e (Builtin.comparison L name r args) :=
  answers_withArity hP fun _ _ =>
    answers_withNumbers hP hargs fun _ _ => Or.inl (held_atom hP _)

/-- Whatever a built-in function answers to values that may be held is a result. No argument is
read that is not there, and nothing but an atom is used as a key. -/
theorem answers_builtin {L : Legend} {args : List Value} (hargs : ∀ v ∈ args, P.Held e v)
    (b : Builtin) : P.Answers e (b.apply L args) := by
  have hatom : ∀ a, P.Answers e (.ok (.atom a)) := fun a => Or.inl (held_atom hP a)
  have hdrop : ∀ n, ∀ v ∈ args.drop n, P.Held e v := fun n v hv => hargs v (List.mem_of_mem_drop hv)
  cases b with
  | add => exact answers_withNumbers hP hargs fun _ _ => hatom _
  | mul => exact answers_withNumbers hP hargs fun _ _ => hatom _
  | sub =>
    refine answers_withArity hP fun hleast _ => answers_withNumbers hP hargs fun xs hxs => ?_
    refine answers_item (i := 0) (by omega) fun x _ => ?_
    split_ifs
    · exact hatom _
    · exact answers_after (i := 1) (by omega) (hatom _)
  | div =>
    refine answers_withArity hP fun hleast _ => answers_withNumbers hP hargs fun xs hxs => ?_
    dsimp only
    have hpos : 1 ≤ (if xs.length = 1 then 1 :: xs else xs).length := by
      split_ifs
      · simp
      · omega
    refine answers_item (i := 0) hpos fun x _ => answers_after (i := 1) hpos ?_
    cases Builtin.quotient x _ with
    | none => exact result_fail hP (by decide) _
    | some q => exact hatom _
  | mod =>
    refine answers_withArity hP fun hleast _ => answers_withNumbers hP hargs fun xs hxs => ?_
    refine answers_item (i := 1) (by omega) fun y _ => ?_
    split_ifs
    · exact result_fail hP (by decide) _
    · exact answers_item (i := 0) (by omega) fun x _ => hatom _
  | eq =>
    refine answers_withArity hP fun hleast _ => answers_after (i := 1) hleast ?_
    exact answers_item (i := 0) hleast fun v _ => hatom _
  | lt => exact answers_comparison hP hargs
  | gt => exact answers_comparison hP hargs
  | le => exact answers_comparison hP hargs
  | ge => exact answers_comparison hP hargs
  | not => exact answers_unary hP hargs fun v _ => hatom _
  | isNil => exact answers_unary hP hargs fun v _ => by split <;> exact hatom _
  | isNumber => exact answers_unary hP hargs fun v _ => hatom _
  | isError => exact answers_unary hP hargs fun v _ => hatom _
  | errorKind => exact answers_unary hP hargs fun v _ => by split <;> exact hatom _
  | list => exact Or.inl (.list hargs)
  | cons =>
    refine answers_withArity hP fun hleast _ => answers_item (i := 1) hleast fun l hl => ?_
    refine answers_withList hP (hargs l hl) fun items hitems => ?_
    refine answers_item (i := 0) (by omega) fun v hv => Or.inl (.list ?_)
    exact List.forall_mem_cons.mpr ⟨hargs v hv, hitems⟩
  | first =>
    refine answers_unary hP hargs fun l hl => answers_withList hP hl fun items hitems => ?_
    split_ifs with hlength
    · exact hatom _
    · exact answers_argument (i := 0) (by omega) hitems
  | rest =>
    refine answers_unary hP hargs fun l hl => answers_withList hP hl fun items hitems => ?_
    split_ifs with hlength
    · exact Or.inl (.list (by simp))
    · exact answers_after (i := 1) (by omega)
        (Or.inl (.list fun v hv => hitems v (List.mem_of_mem_drop hv)))
  | hashMap =>
    simp only [Builtin.apply]
    split_ifs with hodd
    · exact result_fail hP (by decide) _
    · exact answers_withPairs hP (by omega) hargs (by simp)
  | get =>
    refine answers_withArity hP fun hleast _ => ?_
    have hget : ∀ default, P.Held e default → P.Answers e (do
        let coll ← Slice.item args 0
        let key ← Slice.item args 1
        Builtin.getFrom L coll key default) := fun default hdefault =>
      answers_item (i := 0) (by omega) fun coll hcoll =>
        answers_item (i := 1) hleast fun key _ => answers_getFrom hP (hargs coll hcoll) hdefault
    dsimp only
    split_ifs with hthree
    · exact answers_item (i := 2) (by omega) fun v hv => hget v (hargs v hv)
    · exact hget _ (held_atom hP _)
  | assoc =>
    simp only [Builtin.apply]
    split_ifs with hbad
    · exact result_fail hP (by decide) _
    · have heven : (args.drop 1).length % 2 = 0 := by
        rw [List.length_drop]
        omega
      refine answers_item (i := 0) (by omega) fun v hv => ?_
      split
      · exact answers_withPairs hP heven (hdrop 1) (by simp)
      · exact answers_withPairs hP heven (hdrop 1) (Value.every_map.mp (hargs _ hv))
      · exact answers_mention hP (hargs v hv) (by decide) _
  | count => exact answers_unary hP hargs fun v hv => answers_countOf hP hv
  | str =>
    simp only [Builtin.apply]
    cases h : Builtin.strTexts L args with
    | ok t => exact hatom _
    | error m => exact raises_of_strTexts hP hargs h
  | «do» =>
    simp only [Builtin.apply]
    split_ifs with hnone
    · exact hatom _
    · have hlast : (args.length : Int) - 1 = (args.length - 1 : Nat) := by omega
      rw [hlast]
      exact answers_argument (by omega) hargs
  | identity =>
    simp only [Builtin.apply]
    split_ifs with hone
    · exact result_fail hP (by decide) _
    · exact answers_argument (i := 0) (by omega) hargs

end Policy

end LittleLisp
