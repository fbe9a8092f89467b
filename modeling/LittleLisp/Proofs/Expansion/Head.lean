/-
# Heads of patterns

The first element of a pattern stands for the keyword of the form and is not matched. It is
compiled with the rest of the pattern all the same, so a head that is no literal is declared
as a variable, although nothing is ever remembered under it.

As long as neither the operand patterns nor the template mention it, this makes no difference: the
head may as well be `_`. If the operand patterns mention it too, it counts as declared twice and
the form is refused. If the template mentions it, the template asks for what was remembered under
it, and wherever that would be written the expansion ends with the fault about repetitions of
different lengths.

An ellipsis right after the head is left aside where the template mentions the head: the head then
counts as repeated.

Key definitions: `Template.capture`, `Reference.headed`.
Key theorems: `Reference.pattern_congr`, `Reference.template_congr`, `Reference.clause_of_head`,
`Reference.template_capture`, `Reference.head_matters_only_by_name`.
-/
import LittleLisp.Proofs.Expansion.Renaming

namespace LittleLisp

open Matches (key)

namespace Template

mutual

/-- The template with every identifier `x` that it writes as it is taken for a variable. -/
def capture (x : Text) : Template → Template
  | .leaf t => if t.type = .identifier ∧ t.text = x then .variable x 0 else .leaf t
  | .variable name depth => .variable name depth
  | .list items => .list (captureItems x items)
  | .repeated driver item => .repeated driver (capture x item)

/-- The same for the templates of a list. -/
def captureItems (x : Text) : List Template → List Template
  | [] => []
  | t :: ts => capture x t :: captureItems x ts

end

mutual

/-- A variable outside of all ellipses drives no repetition. -/
theorem driver_capture (x : Text) (k : Nat) :
    ∀ t : Template, (t.capture x).driver? (k + 1) = t.driver? (k + 1)
  | .leaf t => by
    rw [capture]
    split_ifs
    · simp [driver?]
    · rfl
  | .variable name depth => rfl
  | .list items => by rw [capture, driver?, driver?, driverOfItems_capture x k items]
  | .repeated driver item => by rw [capture, driver?, driver?, driver_capture x k item]

theorem driverOfItems_capture (x : Text) (k : Nat) :
    ∀ ts : List Template, driverOfItems? (k + 1) (captureItems x ts) = driverOfItems? (k + 1) ts
  | [] => rfl
  | t :: ts => by
    rw [captureItems, driverOfItems?, driverOfItems?, driver_capture x k t,
      driverOfItems_capture x k ts]

end

end Template

namespace Matches

variable {m : Matches} {x : Text}

mutual

/-- Nor does it have to be repeated as often as others. -/
theorem sameCounts_capture (path : List Nat) (n : Nat) :
    ∀ t : Template, m.sameCounts path n (t.capture x) = m.sameCounts path n t
  | .leaf t => by
    rw [Template.capture]
    split_ifs
    · simp [sameCounts]
    · rfl
  | .variable name depth => rfl
  | .list items => by
    rw [Template.capture, sameCounts, sameCounts, sameCountsItems_capture path n items]
  | .repeated driver item => by
    rw [Template.capture, sameCounts, sameCounts, sameCounts_capture path n item]

theorem sameCountsItems_capture (path : List Nat) (n : Nat) :
    ∀ ts : List Template,
      m.sameCountsItems path n (Template.captureItems x ts) = m.sameCountsItems path n ts
  | [] => rfl
  | t :: ts => by
    rw [Template.captureItems, sameCountsItems, sameCountsItems, sameCounts_capture path n t,
      sameCountsItems_capture path n ts]

end

theorem expandEach_mono {f g : List Nat → Option Node}
    (h : ∀ path n, f path = some n → g path = some n) (path : List Nat) :
    ∀ (k i : Nat) {ns : List Node}, expandEach? f path i k = some ns →
      expandEach? g path i k = some ns
  | 0, _, _, hns => hns
  | k + 1, i, ns, hns => by
    rw [expandEach?] at hns ⊢
    simp only [Option.bind_eq_bind, Option.bind_eq_some_iff] at hns ⊢
    obtain ⟨n, hn, rest, hrest, hsome⟩ := hns
    exact ⟨n, h _ _ hn, rest, expandEach_mono h path k (i + 1) hrest, hsome⟩

theorem capture_ne_repeated {t : Template} (h : ∀ d q, t ≠ .repeated d q) (d : Text)
    (q : Template) : t.capture x ≠ .repeated d q := by
  cases t with
  | leaf t =>
    rw [Template.capture]
    split_ifs <;> simp
  | repeated d' q' => exact absurd rfl (h d' q')
  | _ => simp [Template.capture]

/-- An item and the items after it, taken together. -/
theorem expandItems_cons_of_capture {t : Template} {ts : List Template} {path : List Nat}
    {ns : List Node}
    (ht : ∀ path n, m.expand? (t.capture x) path = some n → m.expand? t path = some n)
    (hts : ∀ ns, m.expandItems? (Template.captureItems x ts) path = some ns →
      m.expandItems? ts path = some ns)
    (h : m.expandItems? (Template.captureItems x (t :: ts)) path = some ns) :
    m.expandItems? (t :: ts) path = some ns := by
  rw [Template.captureItems] at h
  by_cases hrepeated : ∃ d q, t = .repeated d q
  · obtain ⟨d, q, rfl⟩ := hrepeated
    rw [Template.capture, expandItems?, sameCounts_capture] at h
    rw [expandItems?]
    split_ifs at h ⊢ with hcounts
    simp only [Option.bind_eq_bind, Option.bind_eq_some_iff] at h ⊢
    obtain ⟨repetitions, hrepetitions, others, hothers, hns⟩ := h
    have hitem : ∀ path n, m.expand? (q.capture x) path = some n → m.expand? q path = some n := by
      simpa only [Template.capture, expand?] using ht
    exact ⟨repetitions, expandEach_mono hitem path _ _ hrepetitions, others, hts others hothers,
      hns⟩
  · have hplain : ∀ d q, t ≠ .repeated d q := fun d q heq => hrepeated ⟨d, q, heq⟩
    rw [expandItems?_plain (capture_ne_repeated hplain)] at h
    rw [expandItems?_plain hplain]
    simp only [Option.bind_eq_some_iff, Option.map_eq_some_iff] at h ⊢
    obtain ⟨n, hn, rest, hrest, hns⟩ := h
    exact ⟨n, ht path n hn, rest, hts rest hrest, hns⟩

mutual

/-- If nothing was remembered under `x`, then whatever is written where `x` is taken for a variable
is written where `x` is left alone. -/
theorem expand_of_capture (hx : m.nodes.find? (key x []) = none) :
    ∀ (t : Template) (path : List Nat) (n : Node), m.expand? (t.capture x) path = some n →
      m.expand? t path = some n
  | .leaf t, path, n, h => by
    rw [Template.capture] at h
    split_ifs at h with hcapture
    · rw [expand?, List.take_zero, hx] at h
      exact absurd h (by simp)
    · exact h
  | .variable _ _, _, _, h => h
  | .list items, path, n, h => by
    rw [Template.capture, expand?] at h
    simp only [Option.bind_eq_bind, Option.bind_eq_some_iff] at h
    obtain ⟨ns, hns, hn⟩ := h
    rw [expand?, expandItems_of_capture hx items path ns hns]
    exact hn
  | .repeated driver item, path, n, h => by
    rw [Template.capture, expand?] at h
    rw [expand?]
    exact expand_of_capture hx item path n h

theorem expandItems_of_capture (hx : m.nodes.find? (key x []) = none) :
    ∀ (ts : List Template) (path : List Nat) (ns : List Node),
      m.expandItems? (Template.captureItems x ts) path = some ns → m.expandItems? ts path = some ns
  | [], _, _, h => h
  | t :: ts, path, _, h =>
    expandItems_cons_of_capture (expand_of_capture hx t) (expandItems_of_capture hx ts path) h

end

end Matches

namespace Reference

variable {L : Legend} {literals : List Text} {bs cs bs' : Bindings Nat} {depth : Nat}

/-! ### What compiling looks at -/

/-- Agreement about a name is kept. -/
def KeepsAgreement (bs cs bs' cs' : Bindings Nat) : Prop :=
  ∀ y, bs.find? y = cs.find? y → bs'.find? y = cs'.find? y

theorem KeepsAgreement.trans {bs₁ cs₁ bs₂ cs₂ : Bindings Nat} (h : KeepsAgreement bs cs bs₁ cs₁)
    (h' : KeepsAgreement bs₁ cs₁ bs₂ cs₂) : KeepsAgreement bs cs bs₂ cs₂ :=
  fun y hy => h' y (h y hy)

theorem leaf_congr {t : Token} {p : Pattern}
    (hagree : ∀ x ∈ vars literals (.leaf t), bs.find? x = cs.find? x)
    (h : Pattern.compile L literals depth (.leaf t) bs = .ok (p, bs')) :
    ∃ cs', Pattern.compile L literals depth (.leaf t) cs = .ok (p, cs') ∧
      KeepsAgreement bs cs bs' cs' := by
  rcases compile_leaf h with ⟨ht, rfl, rfl⟩ | ⟨ht, hu, rfl, rfl⟩ | ⟨ht, hu, hl, rfl, rfl⟩ |
    ⟨ht, hx, hnew, rfl, rfl⟩
  · exact ⟨cs, by rw [Pattern.compile, if_pos ht], fun _ => id⟩
  · exact ⟨cs, by simp [Pattern.compile, ht, hu], fun _ => id⟩
  · exact ⟨cs, by simp [Pattern.compile, ht, hu, hl], fun _ => id⟩
  · have hfresh : cs.find? t.text = none := by
      rw [← hagree t.text (by simp [vars_leaf_variable ht hx]), hnew]
    refine ⟨cs.insert t.text depth, ?_, fun y hy => ?_⟩
    · simp [Pattern.compile, ht, hx.1, hx.2, hfresh]
    · by_cases hyx : y = t.text
      · rw [hyx, Bindings.find?_insert_self, Bindings.find?_insert_self]
      · rw [Bindings.find?_insert_of_ne hyx, Bindings.find?_insert_of_ne hyx, hy]

variable (L literals) in
/-- Compiling a pattern looks at its own variables only. -/
theorem pattern_congr :
    (∀ (n : Node) (depth : Nat) (bs cs bs' : Bindings Nat) (p : Pattern),
      (∀ x ∈ vars literals n, bs.find? x = cs.find? x) →
        Pattern.compile L literals depth n bs = .ok (p, bs') →
          ∃ cs', Pattern.compile L literals depth n cs = .ok (p, cs') ∧
            KeepsAgreement bs cs bs' cs') ∧
    ∀ (ns : List Node) (depth : Nat) (whole whole' : List Node) (repeats : Bool)
      (bs cs bs' : Bindings Nat) (ps : List Pattern),
      (∀ x ∈ varsOfItems literals ns, bs.find? x = cs.find? x) →
        Pattern.compileItems L literals depth whole repeats ns bs = .ok (ps, bs') →
          ∃ cs', Pattern.compileItems L literals depth whole' repeats ns cs = .ok (ps, cs') ∧
            KeepsAgreement bs cs bs' cs' := by
  refine itemInduction ?absent ?leaf ?form ?nil ?repeated ?plain
  case absent =>
    intro depth bs cs bs' p _ h
    simp [Pattern.compile, Compiled.fail] at h
  case leaf => exact fun t depth bs cs bs' p hagree h => leaf_congr hagree h
  case form =>
    intro ns ih depth bs cs bs' p hagree h
    obtain ⟨ps, hps, rfl⟩ := compile_form h
    rw [vars_form] at hagree
    obtain ⟨cs', hcs', hkeeps⟩ := ih _ _ ns _ _ _ _ _ hagree hps
    refine ⟨cs', ?_, hkeeps⟩
    rw [Pattern.compile, hcs']
    rfl
  case nil =>
    intro depth whole whole' repeats bs cs bs' ps _ h
    obtain ⟨rfl, rfl⟩ := compileItems_nil h
    exact ⟨cs, by rw [Pattern.compileItems], fun _ => id⟩
  case repeated =>
    intro n m ns hm ihn ihns depth whole whole' repeats bs cs bs' ps hagree h
    obtain ⟨rfl, p, qs, ds, hp, hqs, rfl⟩ := compileItems_repeated hm h
    rw [varsOfItems_repeated hm, List.forall_mem_append] at hagree
    obtain ⟨ds', hp', hkeeps⟩ := ihn _ _ _ _ _ hagree.1 hp
    obtain ⟨cs', hqs', hkeeps'⟩ :=
      ihns _ _ whole' _ _ _ _ _ (fun x hx => hkeeps x (hagree.2 x hx)) hqs
    exact ⟨cs', Renaming.compileItems_repeated_ok hm hp' hqs', hkeeps.trans hkeeps'⟩
  case plain =>
    intro n ns hns ihn ihns depth whole whole' repeats bs cs bs' ps hagree h
    obtain ⟨p, qs, ds, hp, hqs, rfl⟩ := compileItems_plain hns h
    rw [varsOfItems_plain hns, List.forall_mem_append] at hagree
    obtain ⟨ds', hp', hkeeps⟩ := ihn _ _ _ _ _ hagree.1 hp
    obtain ⟨cs', hqs', hkeeps'⟩ :=
      ihns _ _ whole' _ _ _ _ _ (fun x hx => hkeeps x (hagree.2 x hx)) hqs
    exact ⟨cs', Renaming.compileItems_plain_ok hns hp' hqs', hkeeps.trans hkeeps'⟩

variable (L) in
/-- Compiling a template looks at its own identifiers only. -/
theorem template_congr {bs cs : Bindings Nat} :
    (∀ (n : Node) (depth : Nat) (u : Template), (∀ x ∈ names n, bs.find? x = cs.find? x) →
      Template.compile L bs depth n = .ok u → Template.compile L cs depth n = .ok u) ∧
    ∀ (ns : List Node) (depth : Nat) (us : List Template),
      (∀ x ∈ namesOfItems ns, bs.find? x = cs.find? x) →
        Template.compileItems L bs depth ns = .ok us →
          Template.compileItems L cs depth ns = .ok us := by
  refine itemInduction ?absent ?leaf ?form ?nil ?repeated ?plain
  case absent => exact fun depth u _ h => by simp [Template.compile, Compiled.fail] at h
  case leaf =>
    intro t depth u hagree h
    rw [Template.compile] at h ⊢
    split_ifs at h ⊢ with ht
    · exact h
    · have hid : t.type = .identifier := not_not.mp ht
      rwa [← hagree t.text (by simp [names, hid])]
  case form =>
    intro ns ih depth u hagree h
    obtain ⟨us, hus, rfl⟩ := template_form h
    rw [Template.compile, ih depth us (by simpa [names] using hagree) hus]
    rfl
  case nil =>
    intro depth us _ h
    rw [templateItems_nil h, Template.compileItems]
  case repeated =>
    intro n m ns hm ihn ihns depth us hagree h
    obtain ⟨u, x, us, hu, hx, hus, rfl⟩ := templateItems_repeated hm h
    rw [namesOfItems_repeated hm, List.forall_mem_append] at hagree
    exact Renaming.templateItems_repeated_ok hm (ihn _ _ hagree.1 hu) hx (ihns _ _ hagree.2 hus)
  case plain =>
    intro n ns hns ihn ihns depth us hagree h
    obtain ⟨u, us, hu, hus, rfl⟩ := templateItems_plain hns h
    rw [namesOfItems_plain hns, List.forall_mem_append] at hagree
    exact Renaming.templateItems_plain_ok hns (ihn _ _ hagree.1 hu) (ihns _ _ hagree.2 hus)

/-! ### One head for another -/

/-- The clause with an identifier as the head of its pattern. -/
def headed (patterns : List Node) (template : Node) (head : Token) : Node :=
  .form [.form (.leaf head :: patterns), template]

/-- What comes after the head of a pattern and an ellipsis that belongs to it. -/
def operandsOf (patterns : List Node) : List Node :=
  if beginsWithEllipsis patterns then patterns.tail else patterns

/-- How many ellipses the head itself is under. -/
def headDepth (patterns : List Node) : Nat := if beginsWithEllipsis patterns then 1 else 0

variable {patterns : List Node} {template : Node} {t u : Token} {x : Text}

theorem compileItems_headed_iff {ps : List Pattern} :
    Pattern.compileItems L literals 0 (.leaf t :: patterns) false (.leaf t :: patterns) [] =
        .ok (ps, bs) ↔
      ∃ p qs cs, Pattern.compile L literals (headDepth patterns) (.leaf t) [] = .ok (p, cs) ∧
        Pattern.compileItems L literals 0 (.leaf t :: patterns) (beginsWithEllipsis patterns)
          (operandsOf patterns) cs = .ok (qs, bs) ∧
        ps = (if beginsWithEllipsis patterns then .repeated p else p) :: qs := by
  cases hbegins : beginsWithEllipsis patterns with
  | false =>
    simp only [operandsOf, headDepth, hbegins, Bool.false_eq_true, if_false]
    refine ⟨fun h => compileItems_plain hbegins h, ?_⟩
    rintro ⟨p, qs, cs, hp, hqs, rfl⟩
    exact Renaming.compileItems_plain_ok hbegins hp hqs
  | true =>
    cases patterns with
    | nil => simp [beginsWithEllipsis] at hbegins
    | cons m ns =>
      simp only [operandsOf, headDepth, hbegins, if_true, List.tail_cons]
      refine ⟨fun h => (compileItems_repeated hbegins h).2, ?_⟩
      rintro ⟨p, qs, cs, hp, hqs, rfl⟩
      exact Renaming.compileItems_repeated_ok hbegins hp hqs

/-- A clause is compiled by compiling its head, then the operand patterns, then the template. -/
theorem compile_headed_iff {c : Clause} :
    Clause.compile L literals (headed patterns template t) = .ok c ↔
      ∃ p cs bs, Pattern.compile L literals (headDepth patterns) (.leaf t) [] = .ok (p, cs) ∧
        Pattern.compileItems L literals 0 (.leaf t :: patterns) (beginsWithEllipsis patterns)
          (operandsOf patterns) cs = .ok (c.operands, bs) ∧
        Template.compile L bs 0 template = .ok c.template := by
  rw [headed, Clause.compile_pair]
  constructor
  · intro h
    obtain ⟨⟨ps, bs⟩, hps, h⟩ := except_bind_eq_ok.mp h
    obtain ⟨w, hw, h⟩ := except_bind_eq_ok.mp h
    cases h
    obtain ⟨p, qs, cs, hp, hqs, rfl⟩ := compileItems_headed_iff.mp hps
    exact ⟨p, cs, bs, hp, hqs, hw⟩
  · rintro ⟨p, cs, bs, hp, hqs, hw⟩
    simp only [bind, Except.bind, compileItems_headed_iff.mpr ⟨p, _, cs, hp, hqs, rfl⟩, hw]
    rfl

/-- An identifier is always accepted as the head. -/
theorem compile_head (L : Legend) (literals : List Text) (depth : Nat)
    (ht : t.type = .identifier) :
    ∃ p cs, Pattern.compile L literals depth (.leaf t) [] = .ok (p, cs) := by
  rw [Pattern.compile, if_neg (not_not.mpr ht)]
  have hundeclared : ¬ (Bindings.find? t.text ([] : Bindings Nat)).isSome = true := by
    simp [Bindings.find?]
  rw [if_neg hundeclared]
  split_ifs <;> exact ⟨_, _, rfl⟩

/-- A head declares at most its own name. -/
theorem find?_of_head {p : Pattern}
    (h : Pattern.compile L literals depth (.leaf t) [] = .ok (p, cs))
    (hx : x ∉ vars literals (.leaf t)) : cs.find? x = none :=
  (declares_leaf h).other x hx

/-- Neither the operand patterns nor the template mention what the head declares. -/
def Unmentioned (literals : List Text) (patterns : List Node) (template : Node) (t : Token) :
    Prop :=
  ∀ x ∈ vars literals (.leaf t),
    x ∉ varsOfItems literals (operandsOf patterns) ∧ x ∉ names template

instance : Decidable (Unmentioned literals patterns template t) :=
  inferInstanceAs (Decidable (∀ x ∈ _, _))

/-- One such head is as good as another. -/
theorem clause_of_head {c : Clause} (hu : u.type = .identifier)
    (hut : Unmentioned literals patterns template t)
    (huu : Unmentioned literals patterns template u)
    (h : Clause.compile L literals (headed patterns template t) = .ok c) :
    Clause.compile L literals (headed patterns template u) = .ok c := by
  obtain ⟨p, bs, bs', hp, hps, hw⟩ := compile_headed_iff.mp h
  obtain ⟨q, cs, hq⟩ := compile_head L literals (headDepth patterns) hu
  -- both heads leave undeclared whatever else is looked at
  have hagree : ∀ x, (x ∈ varsOfItems literals (operandsOf patterns) ∨ x ∈ names template) →
      bs.find? x = cs.find? x := by
    intro x hx
    have ht : x ∉ vars literals (.leaf t) := fun hmem =>
      hx.elim (hut x hmem).1 (hut x hmem).2
    have hu : x ∉ vars literals (.leaf u) := fun hmem =>
      hx.elim (huu x hmem).1 (huu x hmem).2
    rw [find?_of_head hp ht, find?_of_head hq hu]
  obtain ⟨cs', hps', hkeeps⟩ := (pattern_congr L literals).2 _ _ _ (.leaf u :: patterns) _ _ _ _ _
    (fun x hx => hagree x (Or.inl hx)) hps
  have hw' := (template_congr L).1 _ _ _ (fun x hx => hkeeps x (hagree x (Or.inr hx))) hw
  exact compile_headed_iff.mpr ⟨q, cs, cs', hq, hps', hw'⟩

/-- A head that the operand patterns mention is declared twice. -/
theorem clause_refused {c : Clause} (hx : x ∈ vars literals (.leaf t))
    (hmem : x ∈ varsOfItems literals (operandsOf patterns)) :
    Clause.compile L literals (headed patterns template t) ≠ .ok c := by
  intro h
  obtain ⟨p, bs, bs', hp, hps, -⟩ := compile_headed_iff.mp h
  exact (declares_leaf hp).disjoint (declares_compileItems hps) hx hmem

/-! ### A head that the template mentions -/

theorem toOption_bind {α β : Type} (a : Compiled α) (f : α → Compiled β) :
    (a >>= f).toOption = a.toOption.bind fun a => (f a).toOption := by
  cases a <;> rfl

theorem toOption_ok {α : Type} (a : α) : (.ok a : Compiled α).toOption = some a := rfl

theorem templateItems_plain_eq {n : Node} {ns : List Node} (hns : beginsWithEllipsis ns = false) :
    Template.compileItems L bs depth (n :: ns) =
      (do
        let item ← Template.compile L bs depth n
        let items ← Template.compileItems L bs depth ns
        return item :: items) := by
  cases ns with
  | nil =>
    rw [Template.compileItems, Template.compileItems]
    rfl
  | cons m ns => rw [Template.compileItems, if_neg (by simpa [beginsWithEllipsis] using hns)]

variable (L) in
/-- With one more declaration at depth 0, a template takes the name for a variable and is the same
otherwise. -/
theorem template_capture {bs cs : Bindings Nat} (hbound : bs.find? x = some 0)
    (hfree : cs.find? x = none) (hsame : ∀ y, y ≠ x → bs.find? y = cs.find? y) :
    (∀ (n : Node) (depth : Nat), (Template.compile L bs depth n).toOption =
      (Template.compile L cs depth n).toOption.map (Template.capture x)) ∧
    ∀ (ns : List Node) (depth : Nat), (Template.compileItems L bs depth ns).toOption =
      (Template.compileItems L cs depth ns).toOption.map (Template.captureItems x) := by
  refine itemInduction ?absent ?leaf ?form ?nil ?repeated ?plain
  case absent => exact fun depth => rfl
  case leaf =>
    intro t depth
    rw [Template.compile, Template.compile]
    by_cases ht : t.type = .identifier
    · rw [if_neg (not_not.mpr ht), if_neg (not_not.mpr ht)]
      by_cases hx : t.text = x
      · rw [hx, hbound, hfree]
        simp [Except.toOption, Template.capture, ht, hx]
      · rw [hsame _ hx]
        cases cs.find? t.text with
        | none => simp [Except.toOption, Template.capture, hx]
        | some d =>
          dsimp only
          split_ifs
          · rfl
          · rfl
    · simp [ht, Except.toOption, Template.capture]
  case form =>
    intro ns ih depth
    rw [Template.compile, Template.compile, toOption_bind, toOption_bind, ih]
    cases Template.compileItems L cs depth ns <;> rfl
  case nil =>
    intro depth
    rw [Template.compileItems, Template.compileItems]
    rfl
  case repeated =>
    intro n m ns hm ihn ihns depth
    rw [Template.compileItems, Template.compileItems, if_pos hm, if_pos hm, toOption_bind,
      toOption_bind, ihn]
    cases Template.compile L cs (depth + 1) n with
    | error a => rfl
    | ok w =>
      simp only [toOption_ok, Option.map_some, Option.bind_some]
      rw [Template.driver_capture]
      cases w.driver? (depth + 1) with
      | none => cases n.mention L <;> rfl
      | some y =>
        dsimp only
        rw [toOption_bind, toOption_bind, ihns]
        cases Template.compileItems L cs depth ns <;> rfl
  case plain =>
    intro n ns hns ihn ihns depth
    rw [templateItems_plain_eq hns, templateItems_plain_eq hns, toOption_bind, toOption_bind, ihn]
    cases Template.compile L cs depth n with
    | error a => rfl
    | ok w =>
      simp only [toOption_ok, Option.map_some, Option.bind_some]
      rw [toOption_bind, toOption_bind, ihns]
      cases Template.compileItems L cs depth ns <;> rfl

theorem toOption_eq_some {α : Type} {a : Compiled α} {b : α} :
    a.toOption = some b ↔ a = .ok b := by
  cases a <;> simp [Except.toOption]

/-- A template compiles with the further declaration exactly when it does without. -/
theorem template_capture_iff {bs cs : Bindings Nat} (hbound : bs.find? x = some 0)
    (hfree : cs.find? x = none) (hsame : ∀ y, y ≠ x → bs.find? y = cs.find? y) {v : Template} :
    Template.compile L bs depth template = .ok v ↔
      ∃ w, Template.compile L cs depth template = .ok w ∧ v = w.capture x := by
  rw [← toOption_eq_some, (template_capture L hbound hfree hsame).1, Option.map_eq_some_iff]
  simp only [toOption_eq_some]
  exact exists_congr fun w => and_congr_right fun _ => eq_comm

theorem compile_variable_head (ht : t.type = .identifier) (hx : IsVariable literals t.text) :
    Pattern.compile L literals depth (.leaf t) [] =
      .ok (.variable t.text depth, [(t.text, depth)]) := by
  simp [Pattern.compile, ht, hx.1, hx.2, Bindings.find?, Bindings.insert]

theorem compile_underscore_head (hu : u.type = .identifier) (hname : u.text = underscore) :
    Pattern.compile L literals depth (.leaf u) [] = .ok (.wildcard, []) := by
  simp [Pattern.compile, hu, hname]

variable (template) in
/-- A head that the operand patterns do not mention: the clause is accepted as with `_`, and differs
in what the template makes of the name. -/
theorem clause_captured_iff {c : Clause} (ht : t.type = .identifier)
    (hx : IsVariable literals t.text) (hu : u.type = .identifier) (hname : u.text = underscore)
    (hplain : beginsWithEllipsis patterns = false) (hmem : t.text ∉ varsOfItems literals patterns) :
    Clause.compile L literals (headed patterns template t) = .ok c ↔
      ∃ w, Clause.compile L literals (headed patterns template u) = .ok ⟨c.operands, w⟩ ∧
        c.template = w.capture t.text := by
  have hother : ∀ y, y ≠ t.text → Bindings.find? y [(t.text, 0)] = Bindings.find? y [] := by
    intro y hy
    simp [Bindings.find?, hy]
  have hvars : ∀ y ∈ varsOfItems literals patterns, y ≠ t.text :=
    fun y hy heq => hmem (heq ▸ hy)
  -- the declarations after the operand patterns differ by the head alone
  have hafter {bs cs : Bindings Nat} {whole whole' : List Node} {ps : List Pattern}
      (hbs : Pattern.compileItems L literals 0 whole false patterns [(t.text, 0)] = .ok (ps, bs))
      (hcs : Pattern.compileItems L literals 0 whole' false patterns [] = .ok (ps, cs))
      (hkeeps : KeepsAgreement [(t.text, 0)] [] bs cs) {v : Template} :
      Template.compile L bs 0 template = .ok v ↔
        ∃ w, Template.compile L cs 0 template = .ok w ∧ v = w.capture t.text := by
    refine template_capture_iff ?_ ?_ fun y hy => hkeeps y (hother y hy)
    · rw [(declares_compileItems hbs).other _ hmem]
      simp [Bindings.find?]
    · rw [(declares_compileItems hcs).other _ hmem]
      rfl
  rw [compile_headed_iff]
  simp only [compile_headed_iff, operandsOf, headDepth, hplain, Bool.false_eq_true, if_false,
    compile_variable_head ht hx, compile_underscore_head hu hname, Except.ok.injEq, Prod.mk.injEq]
  constructor
  · rintro ⟨_, _, bs, ⟨rfl, rfl⟩, hps, hw⟩
    obtain ⟨cs, hps', hkeeps⟩ := (pattern_congr L literals).2 _ _ _ (.leaf u :: patterns) _ _ []
      _ _ (fun y hy => hother y (hvars y hy)) hps
    obtain ⟨w, hw', hcapture⟩ := (hafter hps hps' hkeeps).mp hw
    exact ⟨w, ⟨_, _, cs, ⟨rfl, rfl⟩, hps', hw'⟩, hcapture⟩
  · rintro ⟨w, ⟨_, _, cs, ⟨rfl, rfl⟩, hps, hw⟩, hcapture⟩
    obtain ⟨bs, hps', hkeeps⟩ := (pattern_congr L literals).2 _ _ _ (.leaf t :: patterns) _ _
      [(t.text, 0)] _ _ (fun y hy => (hother y (hvars y hy)).symm) hps
    have hkeeps' : KeepsAgreement [(t.text, 0)] [] bs cs := fun y hy => (hkeeps y hy.symm).symm
    exact ⟨_, _, bs, ⟨rfl, rfl⟩, hps', (hafter hps' hps hkeeps').mpr ⟨w, hw, hcapture⟩⟩

/-- If names have no `#`, matching the operand patterns remembers nothing under the head. -/
theorem find?_head_of_match {whole operands : List Node} {ps : List Pattern} {m : Matches}
    {repeats : Bool}
    (h : Pattern.compileItems L literals 0 whole repeats patterns [] = .ok (ps, bs))
    (hsharp : ∀ y ∈ varsOfItems literals patterns, Sharpless y) (hx : Sharpless x)
    (hmem : x ∉ varsOfItems literals patterns)
    (hm : Matches.unifyItems? ps .empty [] operands = some m) :
    m.nodes.find? (key x []) = none := by
  obtain ⟨a, -, -, hframe⟩ := (finds_all L literals).2 _ _ _ _ _ _ _ h hsharp _ _ _ _ hm
  rw [(hframe x [] hx fun h => absurd h hmem).nodes]
  rfl

theorem outcome_capture {operands : List Node} {ps : List Pattern} {w : Template}
    (h : ∀ m, Matches.unifyItems? ps .empty [] operands = some m →
      m.nodes.find? (key x []) = none) (cs : List Clause) :
    outcome operands (⟨ps, w.capture x⟩ :: cs) = outcome operands (⟨ps, w⟩ :: cs) ∨
      outcome operands (⟨ps, w.capture x⟩ :: cs) = .uneven := by
  rw [Renaming.outcome_cons, Renaming.outcome_cons]
  dsimp only
  cases hm : Matches.unifyItems? ps .empty [] operands with
  | none => exact Or.inl rfl
  | some m =>
    dsimp only
    cases hw : m.expand? (w.capture x) [] with
    | none => exact Or.inr rfl
    | some n =>
      rw [Matches.expand_of_capture (h m hm) w [] n hw]
      exact Or.inl rfl

/-! ### User-defined forms -/

theorem compileAll_append_iff {form : Node} {after : List Node} :
    ∀ {before : List Node} {cs : List Clause},
      Clause.compileAll L literals (before ++ form :: after) = .ok cs ↔
        ∃ bs c as, Clause.compileAll L literals before = .ok bs ∧
          Clause.compile L literals form = .ok c ∧ Clause.compileAll L literals after = .ok as ∧
            cs = bs ++ c :: as
  | [], cs => by
    simp only [List.nil_append, Clause.compileAll, except_bind_eq_ok, pure, Except.pure,
      Except.ok.injEq]
    constructor
    · rintro ⟨c, hc, as, has, rfl⟩
      exact ⟨[], c, as, rfl, hc, has, rfl⟩
    · rintro ⟨_, c, as, rfl, hc, has, rfl⟩
      exact ⟨c, hc, as, has, rfl⟩
  | other :: before, cs => by
    simp only [List.cons_append, Clause.compileAll, except_bind_eq_ok, pure, Except.pure,
      Except.ok.injEq, compileAll_append_iff]
    constructor
    · rintro ⟨d, hd, _, ⟨bs, c, as, hbs, hc, has, rfl⟩, rfl⟩
      exact ⟨d :: bs, c, as, ⟨d, hd, bs, hbs, rfl⟩, hc, has, rfl⟩
    · rintro ⟨_, c, as, ⟨d, hd, bs, hbs, rfl⟩, hc, has, rfl⟩
      exact ⟨d, hd, _, ⟨bs, c, as, hbs, hc, has, rfl⟩, rfl⟩

/-- What the clauses before decide, they decide whatever comes after them. -/
theorem outcome_append {operands : List Node} {cs ds : List Clause}
    {P : Expansion → Expansion → Prop} (hrefl : ∀ r, P r r)
    (h : P (outcome operands cs) (outcome operands ds)) :
    ∀ bs, P (outcome operands (bs ++ cs)) (outcome operands (bs ++ ds))
  | [] => h
  | c :: bs => by
    rw [List.cons_append, List.cons_append, Renaming.outcome_cons, Renaming.outcome_cons]
    cases Matches.unifyItems? c.operands .empty [] operands with
    | none => exact outcome_append hrefl h bs
    | some m => exact hrefl _

section Forms

variable {keyword : Text} {head lits : Node} {before after : List Node}

variable (L keyword head lits before after) in
/-- All of a form but one of its clauses is accepted; the clauses around it are `bs` and `as`. -/
def Surrounds (bs as : List Clause) : Prop :=
  (head.identifier?.any fun t => t.text == Text.ofString "syntax-rules") = true ∧
    ∃ ns names, lits = .form ns ∧ Transformation.literalNames L ns = .ok names ∧
      Clause.compileAll L (keyword :: names) before = .ok bs ∧
        Clause.compileAll L (keyword :: names) after = .ok as

theorem compile_around_iff {form : Node} {f : Transformation} :
    Transformation.compile L keyword (.form (head :: lits :: (before ++ form :: after))) = .ok f ↔
      ∃ bs c as, Surrounds L keyword head lits before after bs as ∧
        Clause.compile L (literalsOf keyword (.form [head, lits])) form = .ok c ∧
          f = ⟨keyword, bs ++ c :: as⟩ := by
  rw [Renaming.compile_iff]
  have hliterals {ns : List Node} {names : List Text}
      (h : Transformation.literalNames L ns = .ok names) :
      literalsOf keyword (.form [head, .form ns]) = keyword :: names := by
    rw [literalNames_eq h]
    rfl
  constructor
  · rintro ⟨hhead, ns, names, cs, rfl, hnames, hcs, rfl⟩
    obtain ⟨bs, c, as, hbs, hc, has, rfl⟩ := compileAll_append_iff.mp hcs
    rw [hliterals hnames]
    exact ⟨bs, c, as, ⟨hhead, ns, names, rfl, hnames, hbs, has⟩, hc, rfl⟩
  · rintro ⟨bs, c, as, ⟨hhead, ns, names, rfl, hnames, hbs, has⟩, hc, rfl⟩
    rw [hliterals hnames] at hc
    exact ⟨hhead, ns, names, _, rfl, hnames, compileAll_append_iff.mpr
      ⟨bs, c, as, hbs, hc, has, rfl⟩, rfl⟩

theorem Surrounds.unique {bs as bs' as' : List Clause}
    (h : Surrounds L keyword head lits before after bs as)
    (h' : Surrounds L keyword head lits before after bs' as') : bs = bs' ∧ as = as' := by
  obtain ⟨-, ns, names, rfl, hnames, hbs, has⟩ := h
  obtain ⟨-, ns', names', hns, hnames', hbs', has'⟩ := h'
  obtain rfl : ns = ns' := by simpa using hns
  obtain rfl : names = names' := Except.ok.inj (hnames.symm.trans hnames')
  exact ⟨Except.ok.inj (hbs.symm.trans hbs'), Except.ok.inj (has.symm.trans has')⟩

theorem unmentioned_underscore (literals : List Text) (patterns : List Node) (template : Node)
    (hu : u.text = underscore) :
    Unmentioned literals patterns template u := by
  rw [Unmentioned, vars_leaf_other fun _ h => h.1 hu]
  simp

variable (before after) in
/-- A head that at most the template mentions. -/
theorem captured_form_alike (ht : t.type = .identifier) (hu : u.type = .identifier)
    (hname : u.text = underscore)
    (hx : IsVariable (literalsOf keyword (.form [head, lits])) t.text)
    (hplain : beginsWithEllipsis patterns = false)
    (hmem : t.text ∉ varsOfItems (literalsOf keyword (.form [head, lits])) patterns)
    (hsharp : Sharpless t.text)
    (hsharps : ∀ y ∈ varsOfItems (literalsOf keyword (.form [head, lits])) patterns, Sharpless y) :
    let form (h : Token) : Node :=
      .form (head :: lits :: (before ++ headed patterns template h :: after))
    ((∃ f, Transformation.compile L keyword (form t) = .ok f) ↔
      ∃ g, Transformation.compile L keyword (form u) = .ok g) ∧
    ∀ f g, Transformation.compile L keyword (form t) = .ok f →
      Transformation.compile L keyword (form u) = .ok g → ∀ L' operands,
        f.expand L' operands = g.expand L' operands ∨
          f.expand L' operands = Expansion.uneven.node L' keyword operands := by
  intro form
  have hclause (c : Clause) :=
    clause_captured_iff (L := L) (c := c) template ht hx hu hname hplain hmem
  refine ⟨⟨?_, ?_⟩, ?_⟩
  · rintro ⟨f, hf⟩
    obtain ⟨bs, c, as, hall, hc, rfl⟩ := compile_around_iff.mp hf
    obtain ⟨w, hw, -⟩ := (hclause c).mp hc
    exact ⟨_, compile_around_iff.mpr ⟨bs, _, as, hall, hw, rfl⟩⟩
  · rintro ⟨g, hg⟩
    obtain ⟨bs, c, as, hall, hc, rfl⟩ := compile_around_iff.mp hg
    have hcaptured := (hclause ⟨c.operands, c.template.capture t.text⟩).mpr ⟨c.template, hc, rfl⟩
    exact ⟨_, compile_around_iff.mpr ⟨bs, _, as, hall, hcaptured, rfl⟩⟩
  · intro f g hf hg L' operands
    obtain ⟨bs, c, as, hall, hc, rfl⟩ := compile_around_iff.mp hf
    obtain ⟨bs', c', as', hall', hc', rfl⟩ := compile_around_iff.mp hg
    obtain ⟨rfl, rfl⟩ := hall.unique hall'
    obtain ⟨w, hw, htemplate⟩ := (hclause c).mp hc
    obtain rfl : c' = ⟨c.operands, w⟩ := Except.ok.inj (hc'.symm.trans hw)
    -- under the head nothing is remembered, so only what is written can differ
    have hunbound : ∀ m, Matches.unifyItems? c.operands .empty [] operands = some m →
        m.nodes.find? (key t.text []) = none := by
      intro m hm
      obtain ⟨_, _, cs, hhead, hps, -⟩ := compile_headed_iff.mp hw
      rw [compile_underscore_head hu hname] at hhead
      obtain ⟨-, rfl⟩ := Prod.mk.inj (Except.ok.inj hhead)
      rw [operandsOf, hplain] at hps
      exact find?_head_of_match hps hsharps hsharp hmem hm
    have halike := outcome_capture hunbound as (w := w)
    rw [← htemplate] at halike
    rw [expand_eq_outcome (Transformation.bounded_of_compile hf),
      expand_eq_outcome (Transformation.bounded_of_compile hg)]
    have hwhole := outcome_append (P := fun r r' => r = r' ∨ r = .uneven) (fun _ => Or.inl rfl)
      halike bs
    exact hwhole.imp (fun h => by rw [h]) fun h => by rw [h]

/-- **A head matters only if it is mentioned.** Take a form, one of its clauses, and an identifier
as the head of that clause's pattern. If neither the operand patterns nor the template mention what
the head declares, the form is accepted exactly when it is accepted with `_` as the head, as the
same transformation. If the operand patterns mention it, the form is refused. If at most the
template does, and names contain no `#`, the form is accepted exactly when it is with `_`, and on
all operands it is replaced by the same tree or by the fault about repetitions of different
lengths. -/
theorem head_matters_only_by_name (L : Legend) (keyword : Text) (head lits : Node)
    (before after patterns : List Node) (template : Node) (ht : t.type = .identifier)
    (hu : u.type = .identifier) (hname : u.text = underscore) :
    let literals := literalsOf keyword (.form [head, lits])
    let form (h : Token) : Node :=
      .form (head :: lits :: (before ++ headed patterns template h :: after))
    (Unmentioned literals patterns template t →
      ∀ f, Transformation.compile L keyword (form t) = .ok f ↔
        Transformation.compile L keyword (form u) = .ok f) ∧
    ((∃ x ∈ vars literals (.leaf t), x ∈ varsOfItems literals (operandsOf patterns)) →
      ∀ f, Transformation.compile L keyword (form t) ≠ .ok f) ∧
    (beginsWithEllipsis patterns = false →
      (∀ x ∈ vars literals (.leaf t), x ∉ varsOfItems literals patterns) →
      (∀ x ∈ vars literals (.leaf t) ++ varsOfItems literals patterns, Sharpless x) →
        ((∃ f, Transformation.compile L keyword (form t) = .ok f) ↔
          ∃ g, Transformation.compile L keyword (form u) = .ok g) ∧
        ∀ f g, Transformation.compile L keyword (form t) = .ok f →
          Transformation.compile L keyword (form u) = .ok g → ∀ L' operands,
            f.expand L' operands = g.expand L' operands ∨
              f.expand L' operands = Expansion.uneven.node L' keyword operands) := by
  intro literals form
  have hunderscore := unmentioned_underscore literals patterns template hname
  have hsame (hmention : Unmentioned literals patterns template t) (f : Transformation) :
      Transformation.compile L keyword (form t) = .ok f ↔
        Transformation.compile L keyword (form u) = .ok f := by
    have hclause (c : Clause) : Clause.compile L literals (headed patterns template t) = .ok c ↔
        Clause.compile L literals (headed patterns template u) = .ok c :=
      ⟨clause_of_head hu hmention hunderscore, clause_of_head ht hunderscore hmention⟩
    simp only [form, compile_around_iff, hclause, literals]
  refine ⟨hsame, ?_, fun hplain hmem hsharp => ?_⟩
  · rintro ⟨x, hx, hmem⟩ f h
    obtain ⟨bs, c, as, -, hc, -⟩ := compile_around_iff.mp h
    exact clause_refused hx hmem hc
  · by_cases hx : IsVariable literals t.text
    · rw [vars_leaf_variable ht hx] at hmem hsharp
      rw [List.forall_mem_append, List.forall_mem_singleton] at hsharp
      exact captured_form_alike before after ht hu hname hx hplain (by simpa using hmem) hsharp.1
        hsharp.2
    · -- a head that declares nothing is as good as `_`
      have hmention : Unmentioned literals patterns template t := by
        rw [Unmentioned, vars_leaf_other fun _ => hx]
        simp
      have hsame := hsame hmention
      refine ⟨exists_congr hsame, fun f g hf hg L' operands => Or.inl ?_⟩
      rw [Except.ok.inj (((hsame f).mp hf).symm.trans hg)]

/-- The head of `((h a) (list a a))` is as good as `_`, `((a a) (list a a))` is refused, and
`((h a) (list h a))` is accepted but differs from the same clause with `_` by the fault alone. -/
theorem head_matters_only_by_name_of_lists :
    let token (text : Text) : Token := ⟨.identifier, .unknown, text, .undefined text⟩
    let word (text : Text) : Node := .leaf (token text)
    let form (x h : Text) : Node := .form (word "syntax-rules" :: .form [] :: ([] ++
      headed [word "a"] (.form [word "list", word x, word "a"]) (token h) :: []))
    let L : Legend := ⟨fun _ => [], fun _ => [], fun _ => .ok []⟩
    (∃ f, Transformation.compile L "m" (form "a" "h") = .ok f ∧
      Transformation.compile L "m" (form "a" "_") = .ok f) ∧
    (∀ f, Transformation.compile L "m" (form "a" "a") ≠ .ok f) ∧
    ∃ f g, Transformation.compile L "m" (form "h" "h") = .ok f ∧
      Transformation.compile L "m" (form "h" "_") = .ok g ∧ ∀ operands,
        f.expand L operands = g.expand L operands ∨
          f.expand L operands = Expansion.uneven.node L "m" operands := by
  intro token word form L
  have hok (x : Text) (hx : (Transformation.compile L "m" (form x "_")).isOk = true) :
      ∃ f, Transformation.compile L "m" (form x "_") = .ok f := by
    cases h : Transformation.compile L "m" (form x "_") with
    | error alarm => simp [h, Except.isOk, Except.toBool] at hx
    | ok f => exact ⟨f, rfl⟩
  have hheads (x h : Text) := head_matters_only_by_name L "m" (word "syntax-rules") (.form []) []
    [] [word "a"] (.form [word "list", word x, word "a"]) (t := token h) (u := token "_")
    rfl rfl rfl
  obtain ⟨f, hf⟩ := hok "a" (by decide +kernel)
  obtain ⟨g, hg⟩ := hok "h" (by decide +kernel)
  obtain ⟨haccepted, halike⟩ := (hheads "h" "h").2.2 (by decide) (by decide +kernel)
    (by decide +kernel)
  obtain ⟨f', hf'⟩ := haccepted.mpr ⟨g, hg⟩
  exact ⟨⟨f, ((hheads "a" "h").1 (by decide +kernel) f).mpr hf, hf⟩,
    (hheads "a" "a").2.1 (by decide +kernel), f', g, hf', hg, halike f' g hf' hg L⟩

/-- With `h` in the template the head shows: the operand `1` gives the fault where `_` gives
`(list h 1)`. -/
example :
    let token (text : Text) : Token := ⟨.identifier, .unknown, text, .undefined text⟩
    let word (text : Text) : Node := .leaf (token text)
    let form (h : Text) : Node := .form [word "syntax-rules", .form [],
      headed [word "a"] (.form [word "list", word "h", word "a"]) (token h)]
    let L : Legend := ⟨fun _ => [], fun _ => [], fun _ => .ok []⟩
    let one : Node := .leaf ⟨.literal, .unknown, "1", .bool true⟩
    let written (h : Text) : Option Text :=
      (Transformation.compile L "m" (form h)).toOption.bind fun f =>
        ((f.expand L [one]).text L).toOption
    written "_" = some "(list h 1)" ∧
      written "h" = some "m: ellipsis variables matched different lengths in (1)" := by
  decide +kernel

end Forms

end Reference

end LittleLisp
