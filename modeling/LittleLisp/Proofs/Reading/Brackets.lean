/-
# Brackets

Building a forest from tokens and writing a forest down as tokens are inverse to each other.
Written down, a form is its children between two bracket tokens. Tokens that build a forest
are the ones it is written down as, up to the lists that are still open at the end and up to
which bracket tokens are used. The first token that fits nowhere decides how building fails,
and in what the reader reads that token is never a closing bracket: the reader counts the
open lists too, and does not call such a bracket the end of a list.

Key definitions: `Node.linear`, `Token.rebracket`, `Token.Offends`, `Token.Unoffending`,
`Node.Every`, `Forest.Built`, `Reader.Balanced`.
Key theorems: `Forest.extend_of_unoffending`, `Forest.extend_linearAll`, `Forest.extend_of_map_eq`,
`Reader.balanced_step`, `Forest.build_inverts_linear`.
-/
import Mathlib.Data.List.Induction
import LittleLisp.Proofs.Reading.Lexeme
import LittleLisp.Tree.Builder

namespace LittleLisp

namespace Token

/-! ### Open lists -/

@[simp] theorem openLists_nil : openLists [] = 0 := rfl

@[simp] theorem openLists_cons (t : Token) (ts : List Token) :
    openLists (t :: ts) = t.depthChange + openLists ts := rfl

@[simp] theorem openLists_append (ts us : List Token) :
    openLists (ts ++ us) = openLists ts + openLists us := by
  induction ts with
  | nil => simp
  | cons t ts ih => rw [List.cons_append, openLists_cons, openLists_cons, ih, Int.add_assoc]

/-- Every token of the list stands in a relation to the ones before it. -/
def Throughout (R : List Token → Token → Prop) (ts : List Token) : Prop :=
  ∀ before t after, ts = before ++ t :: after → R before t

section Throughout

variable {R : List Token → Token → Prop} {ts us : List Token} {t : Token}

theorem throughout_nil : Throughout R [] := by
  intro before t after h
  simp at h

theorem Throughout.of_append (h : Throughout R (ts ++ us)) : Throughout R ts := by
  rintro before t after rfl
  exact h before t (after ++ us) (by simp)

theorem Throughout.last (h : Throughout R (ts ++ [t])) : R ts t := h ts t [] rfl

theorem Throughout.concat (h : Throughout R ts) (ht : R ts t) : Throughout R (ts ++ [t]) := by
  intro before u after heq
  rcases List.eq_nil_or_concat after with rfl | ⟨rest, last, rfl⟩
  · obtain ⟨rfl, hlast⟩ := List.append_inj' heq rfl
    rwa [← List.singleton_inj.mp hlast]
  · have heq : ts ++ [t] = (before ++ u :: rest) ++ [last] := by simpa using heq
    obtain ⟨rfl, -⟩ := List.append_inj' heq rfl
    exact h before u rest rfl

end Throughout

/-- A token that fits nowhere after `before`: an invalid one, or a closing bracket when no list is
open. -/
def Offends (before : List Token) (t : Token) : Prop :=
  t.type = .invalid ∨ t.type = .listEnd ∧ openLists before = 0

/-- Every token fits. -/
def Unoffending : List Token → Prop := Throughout fun before t => ¬ Offends before t

/-- Every closing bracket has a list to close. -/
def Matched : List Token → Prop :=
  Throughout fun before t => t.type = .listEnd → openLists before ≠ 0

/-- Either every token fits, or there is a first one that does not. -/
theorem unoffending_or_first (ts : List Token) :
    Unoffending ts ∨
      ∃ before t after, ts = before ++ t :: after ∧ Unoffending before ∧ Offends before t := by
  induction ts using List.reverseRecOn with
  | nil => exact Or.inl throughout_nil
  | append_singleton ts t ih =>
    rcases ih with h | ⟨before, u, after, rfl, hbefore, hu⟩
    · by_cases ht : Offends ts t
      · exact Or.inr ⟨ts, t, [], rfl, h, ht⟩
      · exact Or.inl (Throughout.concat h ht)
    · exact Or.inr ⟨before, u, after ++ [t], by simp, hbefore, hu⟩

/-- The token, or if it is a bracket the given one of its sort. -/
def rebracket (opening closing t : Token) : Token :=
  match t.type with
  | .listBegin => opening
  | .listEnd => closing
  | _ => t

/-- A token that becomes a leaf. -/
structure IsLeaf (t : Token) : Prop where
  not_begin : t.type ≠ .listBegin
  not_end : t.type ≠ .listEnd
  not_invalid : t.type ≠ .invalid

theorem sort_cases (t : Token) :
    t.type = .invalid ∨ t.type = .listBegin ∨ t.type = .listEnd ∨ t.IsLeaf := by
  by_cases hi : t.type = .invalid
  · exact Or.inl hi
  by_cases hb : t.type = .listBegin
  · exact Or.inr (Or.inl hb)
  by_cases he : t.type = .listEnd
  · exact Or.inr (Or.inr (Or.inl he))
  exact Or.inr (Or.inr (Or.inr ⟨hb, he, hi⟩))

section Brackets

variable {opening closing t : Token}

theorem rebracket_begin (h : t.type = .listBegin) : rebracket opening closing t = opening := by
  rw [rebracket, h]

theorem rebracket_end (h : t.type = .listEnd) : rebracket opening closing t = closing := by
  rw [rebracket, h]

theorem rebracket_leaf (h : t.IsLeaf) : rebracket opening closing t = t := by
  unfold rebracket
  split
  · exact absurd ‹_› h.not_begin
  · exact absurd ‹_› h.not_end
  · rfl

theorem type_rebracket (hb : opening.type = .listBegin) (he : closing.type = .listEnd) (t : Token) :
    (rebracket opening closing t).type = t.type := by
  unfold rebracket
  split
  · rw [hb, ‹t.type = _›]
  · rw [he, ‹t.type = _›]
  · rfl

theorem rebracket_rebracket (hb : opening.type = .listBegin) (he : closing.type = .listEnd)
    (t : Token) :
    rebracket opening closing (rebracket opening closing t) = rebracket opening closing t := by
  have htype := type_rebracket hb he t
  rcases t.sort_cases with hi | h | h | h
  · rw [rebracket, htype, hi]
  · rw [rebracket_begin h, rebracket_begin hb]
  · rw [rebracket_end h, rebracket_end he]
  · rw [rebracket_leaf h, rebracket_leaf h]

theorem depthChange_begin (h : t.type = .listBegin) : t.depthChange = 1 := by
  rw [depthChange, h]

theorem depthChange_end (h : t.type = .listEnd) : t.depthChange = -1 := by
  rw [depthChange, h]

theorem depthChange_other (hb : t.type ≠ .listBegin) (he : t.type ≠ .listEnd) :
    t.depthChange = 0 := by
  unfold depthChange
  split
  · exact absurd ‹_› hb
  · exact absurd ‹_› he
  · rfl

end Brackets

end Token

/-! ### Writing trees down -/

namespace Node

mutual

/-- The tokens of a tree, a form between the two brackets. -/
def linear (opening closing : Token) : Node → List Token
  | .absent => []
  | .leaf t => [t]
  | .form children => opening :: linearAll opening closing children ++ [closing]

/-- The tokens of some trees. -/
def linearAll (opening closing : Token) : List Node → List Token
  | [] => []
  | n :: ns => linear opening closing n ++ linearAll opening closing ns

end

mutual

/-- The tree with other tokens at its leaves. -/
def relabel (f : Token → Token) : Node → Node
  | .absent => .absent
  | .leaf t => .leaf (f t)
  | .form children => .form (relabelAll f children)

/-- The trees with other tokens at their leaves. -/
def relabelAll (f : Token → Token) : List Node → List Node
  | [] => []
  | n :: ns => relabel f n :: relabelAll f ns

end

/-- A tree with nothing missing, all of whose leaves have a property. -/
inductive Every (P : Token → Prop) : Node → Prop where
  | leaf {t : Token} (h : P t) : Every P (.leaf t)
  | form {children : List Node} (h : ∀ n ∈ children, Every P n) : Every P (.form children)

theorem relabelAll_eq_map (f : Token → Token) : ∀ ns : List Node,
    relabelAll f ns = ns.map (relabel f)
  | [] => by rw [relabelAll, List.map_nil]
  | n :: ns => by rw [relabelAll, relabelAll_eq_map f ns, List.map_cons]

/-- Relabelling that leaves every token alone leaves the tree alone. -/
theorem relabel_eq_self {f : Token → Token} {n : Node} (h : n.Every fun t => f t = t) :
    n.relabel f = n := by
  induction h with
  | leaf h => rw [relabel, h]
  | form _ ih => rw [relabel, relabelAll_eq_map, List.map_congr_left ih, List.map_id']

theorem Every.imp {P Q : Token → Prop} (hPQ : ∀ t, P t → Q t) {n : Node} (h : n.Every P) :
    n.Every Q := by
  induction h with
  | leaf h => exact .leaf (hPQ _ h)
  | form _ ih => exact .form ih

variable (opening closing : Token)

@[simp] theorem linear_leaf (t : Token) : linear opening closing (.leaf t) = [t] := by
  rw [linear]

@[simp] theorem linear_form (ns : List Node) :
    linear opening closing (.form ns) = opening :: linearAll opening closing ns ++ [closing] := by
  rw [linear]

@[simp] theorem linearAll_nil : linearAll opening closing [] = [] := by rw [linearAll]

@[simp] theorem linearAll_cons (n : Node) (ns : List Node) :
    linearAll opening closing (n :: ns) =
      linear opening closing n ++ linearAll opening closing ns := by
  rw [linearAll]

@[simp] theorem linearAll_append (ns ms : List Node) :
    linearAll opening closing (ns ++ ms) =
      linearAll opening closing ns ++ linearAll opening closing ms := by
  induction ns with
  | nil => simp
  | cons n ns ih => simp [ih]

end Node

namespace Forest

open Node (linear linearAll)
open Token (openLists rebracket Unoffending Offends)

/-! ### What a partly built forest is written down as -/

section Written

variable (opening closing : Token)

/-- The tokens of a partly built forest, up to where its innermost list goes on. -/
def Stack.written : Stack → List Token
  | ⟨[], top⟩ => linearAll opening closing top.reverse
  | ⟨ns :: outer, top⟩ =>
    Stack.written ⟨outer, top⟩ ++ opening :: linearAll opening closing ns.reverse

theorem written_add (s : Stack) (n : Node) :
    (s.add n).written opening closing = s.written opening closing ++ linear opening closing n := by
  obtain ⟨inner, top⟩ := s
  cases inner with
  | nil => simp [Stack.add, Stack.written]
  | cons ns outer => simp [Stack.add, Stack.written]

theorem written_enter (s : Stack) :
    s.enter.written opening closing = s.written opening closing ++ [opening] := by
  simp [Stack.enter, Stack.written]

theorem written_close {s s' : Stack} (h : s.close? = some s') :
    s'.written opening closing = s.written opening closing ++ [closing] := by
  obtain ⟨inner, top⟩ := s
  cases inner with
  | nil => simp [Stack.close?] at h
  | cons ns outer =>
    obtain rfl := Option.some.inj h
    simp [written_add, Stack.written]

/-- Closing the lists around a finished form writes their closing brackets. -/
theorem written_closeAll : ∀ (outer : List (List Node)) (n : Node) (top : List Node),
    linearAll opening closing (Stack.forest.closeAll outer n top) =
      Stack.written opening closing ⟨outer, top⟩ ++ linear opening closing n ++
        List.replicate outer.length closing
  | [], n, top => by simp [Stack.forest.closeAll, Stack.written]
  | ns :: outer, n, top => by
    rw [Stack.forest.closeAll, written_closeAll outer]
    simp [Stack.written, List.replicate_succ]

theorem written_forest (s : Stack) :
    linearAll opening closing s.forest =
      s.written opening closing ++ List.replicate s.inner.length closing := by
  obtain ⟨inner, top⟩ := s
  cases inner with
  | nil => simp [Stack.forest, Stack.written]
  | cons ns outer =>
    rw [Stack.forest, written_closeAll]
    simp [Stack.written, List.replicate_succ]

end Written

/-! ### Adding tokens one by one -/

variable (module : Text) {s : Stack} {t : Token}

theorem extend_begin (h : t.type = .listBegin) (ts : List Token) :
    extend module s (t :: ts) = extend module s.enter ts := by
  rw [extend.eq_2, h]

theorem extend_end {s' : Stack} (h : t.type = .listEnd) (hs : s.close? = some s')
    (ts : List Token) : extend module s (t :: ts) = extend module s' ts := by
  rw [extend.eq_2, h, hs]

theorem extend_stuck (h : t.type = .listEnd) (hs : s.close? = none) (ts : List Token) :
    extend module s (t :: ts) =
      .error ((Fault.placed .invalidInput t.pos
        ["build: invalid input: unexpected ", t.text.quote]).located (.start module)) := by
  rw [extend.eq_2, h, hs]

theorem extend_invalid (h : t.type = .invalid) (ts : List Token) :
    extend module s (t :: ts) =
      .error (.placed .invalidToken t.pos ["build: invalid token ", t.text.quote]) := by
  rw [extend.eq_2, h]

theorem extend_leaf (h : t.IsLeaf) (ts : List Token) :
    extend module s (t :: ts) = extend module (s.add (.leaf t)) ts := by
  rw [extend.eq_2]
  split
  · exact absurd ‹_› h.not_begin
  · exact absurd ‹_› h.not_end
  · exact absurd ‹_› h.not_invalid
  · rfl

theorem extend_append (s : Stack) (ts us : List Token) :
    extend module s (ts ++ us) = extend module s ts >>= fun s => extend module s us := by
  induction ts generalizing s with
  | nil => rfl
  | cons t ts ih =>
    rw [List.cons_append, extend.eq_2, extend.eq_2]
    split
    · exact ih _
    · split
      · exact ih _
      · rfl
    · rfl
    · exact ih _

theorem build_of_extend {ts : List Token} (h : extend module .empty ts = .ok s) :
    build module ts = s.forest := by
  rw [build, h]

theorem length_add (s : Stack) (n : Node) : (s.add n).inner.length = s.inner.length := by
  obtain ⟨inner, top⟩ := s
  cases inner <;> rfl

theorem close_eq_none : s.close? = none ↔ s.inner = [] := by
  obtain ⟨inner, top⟩ := s
  cases inner <;> simp [Stack.close?]

theorem length_close {s' : Stack} (h : s.close? = some s') :
    s.inner.length = s'.inner.length + 1 := by
  obtain ⟨inner, top⟩ := s
  cases inner with
  | nil => simp [Stack.close?] at h
  | cons ns outer =>
    obtain rfl := Option.some.inj h
    rw [length_add]
    rfl

/-- What the tokens so far have built: it is written down as these tokens, and its open lists are
theirs. -/
structure Built (opening closing : Token) (ts : List Token) (s : Stack) : Prop where
  written : s.written opening closing = ts.map (rebracket opening closing)
  depth : openLists ts = s.inner.length

/-- One more token that fits. -/
theorem Built.step {opening closing : Token} {ts : List Token} (h : Built opening closing ts s)
    (ht : ¬ Offends ts t) :
    ∃ s', extend module s [t] = .ok s' ∧ Built opening closing (ts ++ [t]) s' := by
  rcases t.sort_cases with hi | hb | he | hleaf
  · exact absurd (Or.inl hi) ht
  · refine ⟨s.enter, extend_begin module hb [], ?_, ?_⟩
    · rw [written_enter, h.written, List.map_append, List.map_singleton, Token.rebracket_begin hb]
    · rw [Token.openLists_append, h.depth, Token.openLists_cons, Token.depthChange_begin hb]
      rfl
  · have hopen : s.close? ≠ none := by
      rw [ne_eq, close_eq_none]
      intro hnil
      exact ht (Or.inr ⟨he, by rw [h.depth, hnil]; rfl⟩)
    obtain ⟨s', hs'⟩ := Option.ne_none_iff_exists'.mp hopen
    refine ⟨s', extend_end module he hs' [], ?_, ?_⟩
    · rw [written_close _ _ hs', h.written, List.map_append, List.map_singleton,
        Token.rebracket_end he]
    · rw [Token.openLists_append, h.depth, Token.openLists_cons, Token.depthChange_end he,
        length_close hs', Token.openLists_nil]
      omega
  · refine ⟨s.add (.leaf t), extend_leaf module hleaf [], ?_, ?_⟩
    · rw [written_add, h.written, List.map_append, List.map_singleton, Token.rebracket_leaf hleaf,
        Node.linear_leaf]
    · rw [Token.openLists_append, h.depth, Token.openLists_cons,
        Token.depthChange_other hleaf.not_begin hleaf.not_end, length_add, Token.openLists_nil]
      omega

/-- Tokens of which each fits build a forest that is written down as them. -/
theorem extend_of_unoffending (opening closing : Token) {ts : List Token} (h : Unoffending ts) :
    ∃ s, extend module .empty ts = .ok s ∧ Built opening closing ts s := by
  induction ts using List.reverseRecOn with
  | nil => exact ⟨.empty, rfl, by simp [Stack.empty, Stack.written], rfl⟩
  | append_singleton ts t ih =>
    obtain ⟨s, hs, hbuilt⟩ := ih (Token.Throughout.of_append h)
    obtain ⟨s', hs', hbuilt'⟩ := hbuilt.step module (Token.Throughout.last h)
    refine ⟨s', ?_, hbuilt'⟩
    rw [extend_append, hs]
    exact hs'

/-! ### Building what is written down -/

theorem foldl_add_inner (ns ms : List Node) (outer : List (List Node)) (top : List Node) :
    ns.foldl Stack.add ⟨ms :: outer, top⟩ = ⟨(ns.reverse ++ ms) :: outer, top⟩ := by
  induction ns generalizing ms with
  | nil => rfl
  | cons n ns ih => simp [Stack.add, ih]

theorem foldl_add_top (ns top : List Node) :
    ns.foldl Stack.add ⟨[], top⟩ = ⟨[], ns.reverse ++ top⟩ := by
  induction ns generalizing top with
  | nil => rfl
  | cons n ns ih => simp [Stack.add, ih]

section Linear

variable {opening closing : Token}

/-- Trees that are each added as they are written down are so one after the other. -/
theorem extend_linearAll_of {ns : List Node}
    (h : ∀ n ∈ ns, ∀ (s : Stack) (rest : List Token),
      extend module s (linear opening closing n ++ rest) = extend module (s.add n) rest)
    (s : Stack) (rest : List Token) :
    extend module s (linearAll opening closing ns ++ rest) =
      extend module (ns.foldl Stack.add s) rest := by
  induction ns generalizing s with
  | nil => rw [Node.linearAll_nil, List.nil_append, List.foldl_nil]
  | cons n ns ih =>
    rw [List.forall_mem_cons] at h
    rw [Node.linearAll_cons, List.append_assoc, h.1, ih h.2, List.foldl_cons]

variable (hb : opening.type = .listBegin) (he : closing.type = .listEnd)

include hb he

/-- A tree is added as it is written down. -/
theorem extend_linear {n : Node} (hn : n.Every Token.IsLeaf) :
    ∀ (s : Stack) (rest : List Token),
      extend module s (linear opening closing n ++ rest) = extend module (s.add n) rest := by
  induction hn with
  | leaf h =>
    intro s rest
    rw [Node.linear_leaf, List.singleton_append, extend_leaf module h]
  | @form ns _ ih =>
    intro s rest
    have hclose : (ns.foldl Stack.add s.enter).close? = some (s.add (.form ns)) := by
      rw [Stack.enter, foldl_add_inner]
      simp [Stack.close?]
    rw [Node.linear_form, List.cons_append, List.cons_append, List.append_assoc,
      extend_begin module hb, extend_linearAll_of module ih, List.singleton_append,
      extend_end module he hclose]

theorem extend_linearAll {ns : List Node} (hns : ∀ n ∈ ns, n.Every Token.IsLeaf) :
    extend module .empty (linearAll opening closing ns) = .ok ⟨[], ns.reverse⟩ := by
  have h := extend_linearAll_of module (fun n hn => extend_linear module hb he (hns n hn)) .empty []
  rw [List.append_nil, Stack.empty, foldl_add_top, List.append_nil] at h
  exact h

end Linear

/-! ### Other tokens, same shape -/

/-- A partly built forest with other tokens at its leaves. -/
def Stack.relabel (f : Token → Token) (s : Stack) : Stack :=
  ⟨s.inner.map (Node.relabelAll f), Node.relabelAll f s.top⟩

theorem relabel_add (f : Token → Token) (s : Stack) (n : Node) :
    (s.add n).relabel f = (s.relabel f).add (n.relabel f) := by
  obtain ⟨inner, top⟩ := s
  cases inner <;> simp [Stack.add, Stack.relabel, Node.relabelAll]

theorem relabel_close (f : Token → Token) (s : Stack) :
    (s.relabel f).close? = s.close?.map (Stack.relabel f) := by
  obtain ⟨inner, top⟩ := s
  cases inner with
  | nil => rfl
  | cons ns outer =>
    have hform : (Node.form ns.reverse).relabel f = .form (Node.relabelAll f ns).reverse := by
      rw [Node.relabel, Node.relabelAll_eq_map, Node.relabelAll_eq_map, List.map_reverse]
    have hadd := relabel_add f ⟨outer, top⟩ (.form ns.reverse)
    rw [hform] at hadd
    exact congrArg some hadd.symm

/-- Building looks at the sorts of the tokens only. -/
theorem extend_relabel {f : Token → Token} (hf : ∀ t, (f t).type = t.type) :
    ∀ (ts : List Token) (s : Stack),
      (extend module (s.relabel f) (ts.map f)).toOption =
        (extend module s ts).toOption.map (Stack.relabel f)
  | [], s => rfl
  | t :: ts, s => by
    have ih := extend_relabel hf ts
    have hft := hf t
    rw [List.map_cons]
    rcases t.sort_cases with hi | hb | he | hleaf
    · rw [extend_invalid module hi, extend_invalid module (hft.trans hi)]
      rfl
    · rw [extend_begin module hb, extend_begin module (hft.trans hb), ← ih]
      rfl
    · cases hs : s.close? with
      | none =>
        have hs' : (s.relabel f).close? = none := by rw [relabel_close, hs]; rfl
        rw [extend_stuck module he hs, extend_stuck module (hft.trans he) hs']
        rfl
      | some s' =>
        have hs' : (s.relabel f).close? = some (s'.relabel f) := by rw [relabel_close, hs]; rfl
        rw [extend_end module he hs, extend_end module (hft.trans he) hs', ih]
    · have hleaf' : (f t).IsLeaf :=
        ⟨hft ▸ hleaf.not_begin, hft ▸ hleaf.not_end, hft ▸ hleaf.not_invalid⟩
      rw [extend_leaf module hleaf, extend_leaf module hleaf', ← ih, relabel_add, Node.relabel]

/-- The leaves of what is built are tokens that were added. -/
theorem every_extend {P : Token → Prop} : ∀ (ts : List Token) {s s' : Stack},
    (∀ t ∈ ts, t.IsLeaf → P t) → s.All (Node.Every P) → extend module s ts = .ok s' →
      s'.All (Node.Every P)
  | [], s, s', _, hs, h => by rwa [← Except.ok.inj h]
  | t :: ts, s, s', hts, hs, h => by
    rw [List.forall_mem_cons] at hts
    rcases t.sort_cases with hi | hb | he | hleaf
    · simp [extend_invalid module hi] at h
    · rw [extend_begin module hb] at h
      exact every_extend ts hts.2 hs.enter h
    · cases hclose : s.close? with
      | none => simp [extend_stuck module he hclose] at h
      | some s₁ =>
        rw [extend_end module he hclose] at h
        exact every_extend ts hts.2 (hs.close (fun _ => .form) hclose) h
    · rw [extend_leaf module hleaf] at h
      exact every_extend ts hts.2 (hs.add (.leaf (hts.1 hleaf))) h

section Same

variable {opening closing : Token} (hb : opening.type = .listBegin) (he : closing.type = .listEnd)
  {forest : Forest} (hforest : ∀ n ∈ forest, n.Every Token.IsLeaf) {ts : List Token}

include hb he hforest

/-- Tokens that differ from what a forest is written down as in something other than their sorts
build a forest that differs from it in the same thing. -/
theorem extend_of_map_eq {f : Token → Token} (hf : ∀ t, (f t).type = t.type)
    (h : ts.map f = (linearAll opening closing forest).map f) :
    ∃ s, extend module .empty ts = .ok s ∧
      s.forest.map (Node.relabel f) = forest.map (Node.relabel f) := by
  have hts := extend_relabel module hf ts .empty
  have hlinear := extend_relabel module hf (linearAll opening closing forest) .empty
  rw [extend_linearAll module hb he hforest, ← h, hts] at hlinear
  cases hs : extend module .empty ts with
  | error fault => simp [hs, Except.toOption] at hlinear
  | ok s =>
    obtain ⟨inner, top⟩ := s
    simp only [hs, Except.toOption, Option.map_some, Option.some.injEq, Stack.relabel,
      Stack.mk.injEq, List.map_eq_nil_iff, List.map_nil, Node.relabelAll_eq_map] at hlinear
    obtain ⟨rfl, htop⟩ := hlinear
    refine ⟨_, rfl, ?_⟩
    rw [Stack.forest, List.map_reverse, htop, List.map_reverse, List.reverse_reverse]

/-- Tokens that a forest is written down as, whichever brackets they have, build that forest. -/
theorem build_of_rebracket
    (h : ts.map (rebracket opening closing) = linearAll opening closing forest) :
    build module ts = forest := by
  have hlinear : ts.map (rebracket opening closing) =
      (linearAll opening closing forest).map (rebracket opening closing) := by
    rw [← h, List.map_map]
    exact List.map_congr_left fun t _ => (Token.rebracket_rebracket hb he t).symm
  obtain ⟨s, hs, hsame⟩ :=
    extend_of_map_eq module hb he hforest (Token.type_rebracket hb he) hlinear
  have hleaves : ∀ n ∈ s.forest, n.Every Token.IsLeaf :=
    (every_extend module ts (fun t _ ht => ht) Stack.all_empty hs).forest fun _ => .form
  have hfixed {ns : Forest} (hns : ∀ n ∈ ns, n.Every Token.IsLeaf) :
      ns.map (Node.relabel (rebracket opening closing)) = ns := by
    have heach : ∀ n ∈ ns, n.relabel (rebracket opening closing) = n := fun n hn =>
      Node.relabel_eq_self ((hns n hn).imp fun _ => Token.rebracket_leaf)
    rw [List.map_congr_left heach, List.map_id']
  calc build module ts = s.forest := build_of_extend module hs
    _ = s.forest.map (Node.relabel (rebracket opening closing)) := (hfixed hleaves).symm
    _ = forest := by rw [hsame, hfixed hforest]

end Same

/-- Building up to the first token that fits nowhere. -/
theorem build_of_first {before : List Token} (h : Unoffending before) (t : Token)
    (after : List Token) :
    ∃ s : Stack, openLists before = s.inner.length ∧
      extend module .empty (before ++ t :: after) = extend module s (t :: after) := by
  obtain ⟨s, hs, hbuilt⟩ := extend_of_unoffending module t t h
  refine ⟨s, hbuilt.depth, ?_⟩
  rw [extend_append, hs]
  rfl

end Forest

/-! ### The reader's count -/

namespace Reader

open Token (openLists Matched)

/-- The reader's depth is the number of lists that its tokens leave open, and it has closed no list
that was not open. -/
structure Balanced (s : State) : Prop where
  depth : openLists s.done.reverse = s.depth
  matched : Matched s.done.reverse

variable {r : Reader} {s : State}

theorem balanced_initial : Balanced initial := ⟨rfl, Token.throughout_nil⟩

theorem Balanced.push (h : Balanced s) {t : Token} {depth : Nat}
    (hd : (depth : Int) = s.depth + t.depthChange) (he : t.type = .listEnd → s.depth ≠ 0)
    (place : Place) (mode : Mode) : Balanced ⟨place, depth, mode, t :: s.done⟩ := by
  refine ⟨?_, ?_⟩
  · rw [List.reverse_cons, Token.openLists_append, h.depth, hd, Token.openLists_cons,
      Token.openLists_nil, Int.add_zero]
  · rw [List.reverse_cons]
    refine Token.Throughout.concat h.matched fun ht => ?_
    rw [h.depth]
    exact Int.natCast_ne_zero.mpr (he ht)

theorem Balanced.leaf (h : Balanced s) {t : Token} (hb : t.type ≠ .listBegin)
    (he : t.type ≠ .listEnd) (place : Place) (mode : Mode) :
    Balanced ⟨place, s.depth, mode, t :: s.done⟩ :=
  h.push (by rw [Token.depthChange_other hb he, Int.add_zero]) (fun ht => absurd ht he) place mode

theorem Balanced.word (h : Balanced s) (start : Place) (seen : List Glyph) (place : Place)
    (mode : Mode) : Balanced ⟨place, s.depth, mode, r.wordToken start seen :: s.done⟩ := by
  obtain ⟨type, value, htype, hatom⟩ := ofAtom_eq r.effectiveMarker (Glyph.bytes seen.reverse)
  have hnot : type ≠ .listBegin ∧ type ≠ .listEnd := by
    rcases htype with rfl | rfl | rfl <;> simp
  rw [wordToken, hatom]
  exact h.leaf hnot.1 hnot.2 place mode

theorem balanced_startToken (h : Balanced s) (g : Glyph) : Balanced (startToken r s g) := by
  unfold startToken
  dsimp only
  split_ifs with hblank hline hhash hopen hclose hdepth hquote hbad
  · exact ⟨h.depth, h.matched⟩
  · exact ⟨h.depth, h.matched⟩
  · exact ⟨h.depth, h.matched⟩
  · exact h.push rfl (fun ht => absurd ht (by simp [bareToken])) _ _
  · rw [← hdepth]
    exact h.leaf (by simp [bareToken]) (by simp [bareToken]) _ _
  · refine h.push ?_ (fun _ => hdepth) _ _
    rw [Token.depthChange_end rfl]
    omega
  · exact ⟨h.depth, h.matched⟩
  · exact h.leaf (by simp [bareToken]) (by simp [bareToken]) _ _
  · exact ⟨h.depth, h.matched⟩

theorem balanced_continueWord (h : Balanced s) (start : Place) (seen : List Glyph) (g : Glyph) :
    Balanced (continueWord r s start seen g) := by
  unfold continueWord
  split_ifs
  · exact balanced_startToken (h.word start seen _ _) g
  · exact ⟨h.depth, h.matched⟩

/-- One more glyph keeps the count. -/
theorem balanced_step (h : Balanced s) (g : Glyph) : Balanced (step r s g) := by
  unfold step
  dsimp only
  split
  · exact balanced_startToken h g
  · split_ifs
    · exact ⟨h.depth, h.matched⟩
    · exact balanced_continueWord h _ _ g
  · exact balanced_continueWord h _ _ g
  · split_ifs
    · exact ⟨h.depth, h.matched⟩
    · exact h.leaf (by simp) (by simp) _ _
    · exact ⟨h.depth, h.matched⟩
    · exact ⟨h.depth, h.matched⟩
  · split_ifs
    · exact ⟨h.depth, h.matched⟩
    · exact ⟨h.depth, h.matched⟩
  · split_ifs
    · exact ⟨h.depth, h.matched⟩
    · exact ⟨h.depth, h.matched⟩

theorem balanced_run : ∀ (gs : List Glyph) {s : State}, Balanced s → Balanced (run r s gs)
  | [], _, h => h
  | g :: gs, _, h => balanced_run gs (balanced_step h g)

/-- What the end of the source adds is no bracket. -/
theorem balanced_finish (h : Balanced s) :
    openLists (finish r s) = s.depth ∧ Matched (finish r s) := by
  have hword (start : Place) (seen : List Glyph) := h.word (r := r) start seen s.place .idle
  have hinvalid (start : Place) (seen : List Glyph) :
      Balanced ⟨s.place, s.depth, .idle, r.bareToken .invalid start seen :: s.done⟩ :=
    h.leaf (by simp [bareToken]) (by simp [bareToken]) _ _
  unfold finish
  split
  · exact ⟨h.depth, h.matched⟩
  · exact ⟨(hword _ _).depth, (hword _ _).matched⟩
  · exact ⟨(hword _ _).depth, (hword _ _).matched⟩
  · exact ⟨(hinvalid _ _).depth, (hinvalid _ _).matched⟩
  · exact ⟨h.depth, h.matched⟩
  · exact ⟨(hinvalid _ _).depth, (hinvalid _ _).matched⟩

/-- The reader calls a closing bracket the end of a list only if one is open. -/
theorem matched_tokens (r : Reader) (source : Text) : Matched (r.tokens source) :=
  (balanced_finish (balanced_run source.glyphs balanced_initial)).2

end Reader

namespace Forest

open Node (linear linearAll)
open Token (openLists rebracket Unoffending Offends)

/-- **The builder is exactly the bracket parser.** The first token that fits nowhere decides how
building fails. Without one, the forest is written down as the tokens and an end for each list that
is still open, with the given brackets for theirs. Conversely, building what a forest is written
down as gives the forest, whichever brackets are used. In what is read from a source, every end of a
list has a list to close. -/
theorem build_inverts_linear (module : Text) {opening closing : Token}
    (hb : opening.type = .listBegin) (he : closing.type = .listEnd) :
    (∀ ts, Unoffending ts ∨
      ∃ before t after, ts = before ++ t :: after ∧ Unoffending before ∧ Offends before t) ∧
    (∀ before t after, Unoffending before → t.type = .invalid →
      build module (before ++ t :: after) =
        [Node.ofFault ⟨.invalidToken, Text.concat ["build: invalid token ", t.text.quote],
          t.pos⟩]) ∧
    (∀ before t after, Unoffending before → t.type = .listEnd → openLists before = 0 →
      build module (before ++ t :: after) =
        [Node.ofFault ⟨.invalidInput,
          Text.concat ["build: invalid input: unexpected ", t.text.quote],
          if t.pos.isUnknown then .start module else t.pos⟩]) ∧
    (∀ ts, Unoffending ts → ∃ d : Nat,
      openLists ts = d ∧
      linearAll opening closing (build module ts) =
        ts.map (rebracket opening closing) ++ List.replicate d closing ∧
      (Token.incomplete ts = true ↔ 0 < d)) ∧
    (∀ forest : Forest, (∀ n ∈ forest, n.Every Token.IsLeaf) →
      build module (linearAll opening closing forest) = forest ∧
      ∀ ts, ts.map (rebracket opening closing) = linearAll opening closing forest →
        build module ts = forest) ∧
    ∀ (r : Reader) source before t after, r.tokens source = before ++ t :: after →
      t.type = .listEnd → openLists before ≠ 0 := by
  refine ⟨Token.unoffending_or_first, ?_, ?_, ?_, ?_, ?_⟩
  · intro before t after hbefore ht
    obtain ⟨s, -, hs⟩ := build_of_first module hbefore t after
    rw [build, hs, extend_invalid module ht]
    rfl
  · intro before t after hbefore ht hdepth
    obtain ⟨s, hlength, hs⟩ := build_of_first module hbefore t after
    have hclosed : s.close? = none := by
      rw [close_eq_none, ← List.length_eq_zero_iff]
      omega
    rw [build, hs, extend_stuck module ht hclosed]
    simp [Fault.located, Fault.placed, Position.orElse]
  · intro ts hts
    obtain ⟨s, hs, hbuilt⟩ := extend_of_unoffending module opening closing hts
    refine ⟨s.inner.length, hbuilt.depth, ?_, ?_⟩
    · rw [build_of_extend module hs, ← hbuilt.written, written_forest]
    · rw [Token.incomplete, decide_eq_true_iff, hbuilt.depth]
      omega
  · intro forest hforest
    refine ⟨?_, fun ts hts => build_of_rebracket module hb he hforest hts⟩
    rw [build_of_extend module (extend_linearAll module hb he hforest)]
    exact List.reverse_reverse forest
  · intro r source before t after hsplit ht
    exact r.matched_tokens source before t after hsplit ht

/-- Two lists left open, the outer one with a square bracket: their forest is written down with
round brackets and both ends, and these tokens build it too. -/
theorem build_inverts_linear_unclosed :
    let opening : Token := ⟨.listBegin, .unknown, "(", .absent⟩
    let closing : Token := ⟨.listEnd, .unknown, ")", .absent⟩
    let square : Token := ⟨.listBegin, .start "m", "[", .absent⟩
    let name : Token := ⟨.identifier, .unknown, "a", .undefined "a"⟩
    Unoffending [square, name, opening] ∧
      linearAll opening closing (build "m" [square, name, opening]) =
        [opening, name, opening, closing, closing] ∧
      build "m" [opening, name, opening, closing, closing] = [.form [.leaf name, .form []]] := by
  intro opening closing square name
  obtain ⟨-, -, -, hbuild, hforest, -⟩ :=
    @build_inverts_linear "m" opening closing rfl rfl
  have hsquare : Unoffending ([] ++ [square]) :=
    Token.Throughout.concat Token.throughout_nil (by simp [Offends, square])
  have hname : Unoffending ([square] ++ [name]) :=
    Token.Throughout.concat hsquare (by simp [Offends, name])
  have hall : Unoffending ([square, name] ++ [opening]) :=
    Token.Throughout.concat hname (by simp [Offends, opening])
  have hleaves : ∀ n ∈ [Node.form [.leaf name, .form []]], n.Every Token.IsLeaf := by
    have hleaf : name.IsLeaf := ⟨by decide, by decide, by decide⟩
    have hempty : (Node.form []).Every Token.IsLeaf := .form (by simp)
    simpa using Node.Every.form (by simpa using ⟨.leaf hleaf, hempty⟩)
  refine ⟨hall, ?_, ?_⟩
  · obtain ⟨d, hd, hlinear, -⟩ := hbuild _ hall
    obtain rfl : d = 2 := Int.ofNat_inj.mp hd.symm
    exact hlinear
  · simpa using (hforest _ hleaves).1

end Forest

end LittleLisp
