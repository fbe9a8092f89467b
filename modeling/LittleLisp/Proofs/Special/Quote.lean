/-
# Quoted data

`(quote tree)` evaluates to the tree as data, without evaluating anything in it. So data that is
printed, put after `quote` and read again is the value of that form, in whatever lists it is nested
and however deep: evaluation itself nests no deeper for it. Nothing else happens.

Key definitions: `Text.quoted`.
Key theorems: `Node.datum_relabel`, `Forest.build_quoted`, `Machine.eval_quoted`,
`Session.quoted_data_survives`.
-/
import LittleLisp.Proofs.Prelude.Forms
import LittleLisp.Proofs.Reading.Data

namespace LittleLisp

variable {σ : Type}

/-- The source that quotes what is written as a text. -/
def Text.quoted (x : Text) : Text := Text.concat ["(quote ", x, ")"]

/-! ### The tree of a quotation -/

namespace Node

open Token (unplaced)

mutual

/-- Positions do not show in data. -/
theorem datum_relabel : ∀ n : Node, (n.relabel unplaced).datum = n.datum
  | .absent => by rw [relabel]
  | .leaf t => by simp [relabel, datum, unplaced]
  | .form ns => by rw [relabel, datum, datum, data_relabelAll ns]

theorem data_relabelAll : ∀ ns : List Node, data (relabelAll unplaced ns) = data ns
  | [] => by rw [relabelAll]
  | n :: ns => by rw [relabelAll, data, data, datum_relabel n, data_relabelAll ns]

end

/-- What differs from a leaf in its position at most is a leaf. -/
theorem relabel_eq_leaf {f : Token → Token} {n : Node} {t : Token} (h : n.relabel f = .leaf t) :
    ∃ u, n = .leaf u ∧ f u = t := by
  cases n with
  | leaf u =>
    rw [relabel] at h
    exact ⟨u, rfl, leaf.inj h⟩
  | absent =>
    rw [relabel] at h
    cases h
  | form ns =>
    rw [relabel] at h
    cases h

theorem relabel_eq_form {f : Token → Token} {n : Node} {ms : List Node}
    (h : n.relabel f = .form ms) : ∃ ns, n = .form ns ∧ ns.map (relabel f) = ms := by
  cases n with
  | form ns =>
    rw [relabel, relabelAll_eq_map] at h
    exact ⟨ns, rfl, form.inj h⟩
  | absent =>
    rw [relabel] at h
    cases h
  | leaf u =>
    rw [relabel] at h
    cases h

end Node

namespace Forest

open Node (linear linearAll)
open Reader (Reads)
open Token (unplaced roundOpening roundClosing)

/-- The name of the special form. -/
def quoteName : Token := ⟨.identifier, .unknown, "quote", .undefined "quote"⟩

theorem isLeaf_quoteName : quoteName.IsLeaf := ⟨by decide, by decide, by decide⟩

/-- With the usual marker, the name of the special form is read as an identifier. -/
theorem reads_quoteName {r : Reader} (hmarker : r.effectiveMarker = ":") :
    Reads r "quote" [quoteName] := by
  have hword : Reader.Word (Text.ofString "quote").glyphs :=
    Reader.word_of_plain (by decide) (by decide +kernel)
  have htoken : Token.ofAtom ":" .unknown "quote" = quoteName := by
    have hconstant : ¬ Token.IsConstant "quote" := by decide
    have hidentifier : ¬ Text.extendedBy ":" "quote" = true := by decide
    rw [Token.ofAtom_of_not_constant hconstant, if_neg hidentifier]
    rfl
  have hspelled := Reader.Spelled.word (r := r) .unknown hword
  rw [Text.bytes_glyphs, hmarker, htoken] at hspelled
  exact Reader.Spelled.reads (t := quoteName) hspelled isLeaf_quoteName

/-- A quotation is read as one form: the name of the special form, and the tree that is quoted. -/
theorem build_quoted {r : Reader} (module : Text) {x : Text} {n : Node}
    (hreads : Reads r x (linear roundOpening roundClosing n)) (hleaves : n.Every Token.IsLeaf)
    (hmarker : r.effectiveMarker = ":") :
    ∃ t m, build module (r.tokens x.quoted) = [.form [.leaf t, m]] ∧ t.type = .identifier ∧
      t.text = "quote" ∧ m.datum = n.datum := by
  let tree : Node := .form [.leaf quoteName, n]
  have hname : Reads r "quote" (linear roundOpening roundClosing (.leaf quoteName)) := by
    rw [Node.linear_leaf]
    exact reads_quoteName hmarker
  have hsource : Text.concat ["(", Text.join " " ["quote", x], ")"] = x.quoted := by
    simp [Text.quoted, Text.concat, Text.join, Text.ofString, Text.ofChars]
  have hall : Reads r x.quoted (linearAll roundOpening roundClosing [tree]) := by
    rw [Node.linearAll_cons, Node.linearAll_nil, List.append_nil, Node.linear_form, ← hsource]
    exact (reads_join (by decide) (by decide) (.cons hname (.cons hreads .nil))).enclosed
  have htree : ∀ m ∈ [tree], m.Every Token.IsLeaf := by
    rw [List.forall_mem_singleton]
    exact .form (List.forall_mem_cons.mpr
      ⟨.leaf isLeaf_quoteName, List.forall_mem_singleton.mpr hleaves⟩)
  obtain ⟨s, hs, hsame⟩ :=
    extend_of_map_eq module (by rfl) (by rfl) htree Token.type_unplaced hall.tokens
  -- the forest that is built has the shape of the tree, node by node
  obtain ⟨form, hforest, hform⟩ := List.map_eq_singleton_iff.mp hsame
  have hchildren : tree.relabel unplaced = .form [.leaf quoteName, n.relabel unplaced] := by
    simp only [tree, Node.relabel, Node.relabelAll]
    rfl
  obtain ⟨children, rfl, hmap⟩ := Node.relabel_eq_form (hform.trans hchildren)
  obtain ⟨head, rest, rfl, hhead, hrest⟩ := List.map_eq_cons_iff.mp hmap
  obtain ⟨m, rfl, hm⟩ := List.map_eq_singleton_iff.mp hrest
  obtain ⟨t, rfl, ht⟩ := Node.relabel_eq_leaf hhead
  refine ⟨t, m, (build_of_extend module hs).trans hforest, ?_, ?_, ?_⟩
  · exact congrArg Token.type ht
  · exact congrArg Token.text ht
  · rw [← Node.datum_relabel m, hm, Node.datum_relabel]

end Forest

namespace Machine

variable {M : Machine σ} {s : Store σ} {head : Token}

/-- A quotation evaluates to the datum. -/
theorem eval_quoted (hquote : M.Names s .quote head)
    (hid : s.builtin? Store.identityRef = some .identity) {n : Node}
    (hsettled : ∀ k, n.datum.settled k = (n.datum, k)) (herror : n.datum.isError = false)
    (depth : Nat) :
    (M.recur (depth + 2)).eval [] (.form [.leaf head, n]) s = .done n.datum.orNil s := by
  have hexpand : ∀ x : Transformer, x.expander = .special .quote →
      expand M (M.recur (depth + 1)) x [n] [] s = .done (.ofValue n.datum n.position) s := by
    intro x hx
    simp only [expand, hx, expandQuote_eq, Action.settled, Action.update, bind, Action.bind, hsettled]
    rfl
  have hliteral : Node.ofValue n.datum n.position = .leaf ⟨.literal, n.position, [], n.datum⟩ := by
    cases hn : n.datum with
    | error f =>
      rw [hn] at herror
      cases herror
    | _ => rfl
  rw [hquote.eval hexpand, hliteral]
  exact eval_literal hid (by simp) (by simp) herror

end Machine

namespace Session

/-- **Quoted data survives printing and reading.** In a fresh session data can be printed, and quoted
it evaluates to data equal to it, whatever lists it is nested in. The session stays as it is. -/
theorem quoted_data_survives (host : Host σ) (state : σ) (L : Legend) {v : Value}
    (h : v.Readable (start .default host state).reader) :
    ∃ x w, v.text L = .ok x ∧
      (start .default host state).eval x.quoted = some ([w], start .default host state) ∧
      w.same v = true := by
  set s := start .default host state with hs
  obtain ⟨x, n, hx, hreads, hdenotes⟩ := h.exists_tree L rfl
  obtain ⟨t, m, hbuild, htype, htext, hdatum⟩ :=
    Forest.build_quoted s.store.module hreads hdenotes.leaves rfl
  have hstandard : s.store.Standard := Store.standard_withGlobals _ state
  have hquote : s.machine.Names s.store .quote t := by
    refine ⟨htype, Machine.isMethodName_eq_false rfl (by decide) htext, ?_⟩
    rw [htext]
    exact Store.special?_eq_some.mpr (Store.expander?_eq_some.mp (hstandard.specials .quote))
  obtain ⟨herror, hpresent⟩ := h.of_same hdenotes.same
  have heval : (s.machine.recur s.depth).eval [] (.form [.leaf t, m]) s.store =
      .done n.datum s.store := by
    have hdepth : s.depth = 999999999998 + 2 := rfl
    have hsettled := hdenotes.settled
    rw [← hdatum] at herror hpresent hsettled ⊢
    rw [hdepth, Machine.eval_quoted hquote hstandard.identity hsettled herror, hpresent]
  have hrun : s.machine.runAll s.depth [.form [.leaf t, m]] s.store =
      some ([n.datum], s.store) := by
    simp only [Machine.runAll, Machine.run, heval, Value.located_eq_self herror]
    rfl
  refine ⟨x, n.datum, hx, ?_, hdenotes.same⟩
  rw [eval, parse, hbuild]
  exact evalForest_eq_some.mpr ⟨s.store, hrun, rfl⟩

/-- A list of empty and other lists, with a number, a string that looks like the start of other
tokens, a keyword and a truth value in it. -/
theorem quoted_data_survives_nested :
    let s := start .default .none ()
    let v : Value := .list 7 [.nil, .list 0 [], .list 0 [.number (-1.5), .string "a\" (\n;",
      .list 0 [.keyword ":k", .bool true]]]
    let x : Text := "(nil () (-1.5 \"a\\\" (\\n;\" (:k true)))"
    v.text s.legend = .ok x ∧ ∃ w, s.eval x.quoted = some ([w], s) ∧ w.same v = true := by
  intro s v x
  have hnumber : (Atom.number (-1.5)).ReadsBack s.reader := by decide +kernel
  have hstring : (Atom.string "a\" (\n;").ReadsBack s.reader := by decide +kernel
  have hkeyword : Value.Readable s.reader (.keyword (":" ++ "k")) :=
    .keyword (by decide) (by decide +kernel)
  have hflags : Value.Readable s.reader (.list 0 [.keyword ":k", .bool true]) :=
    .list 0 (List.forall_mem_cons.mpr ⟨hkeyword, List.forall_mem_singleton.mpr (.bool true)⟩)
  have hinner : Value.Readable s.reader (.list 0 [.number (-1.5), .string "a\" (\n;",
      .list 0 [.keyword ":k", .bool true]]) :=
    .list 0 (List.forall_mem_cons.mpr ⟨.number hnumber, List.forall_mem_cons.mpr
      ⟨.string hstring, List.forall_mem_singleton.mpr hflags⟩⟩)
  have hreadable : v.Readable s.reader :=
    .list 7 (List.forall_mem_cons.mpr ⟨.nil, List.forall_mem_cons.mpr
      ⟨.list 0 (by simp), List.forall_mem_singleton.mpr hinner⟩⟩)
  have hprinted : (v.text s.legend).toOption = some x := by decide +kernel
  obtain ⟨y, w, hy, heval, hsame⟩ := quoted_data_survives .none () s.legend hreadable
  rw [hy] at hprinted
  obtain rfl : y = x := Option.some.inj hprinted
  exact ⟨hy, w, heval, hsame⟩

end Session

end LittleLisp
