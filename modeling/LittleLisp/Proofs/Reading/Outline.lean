/-
# Outlines

What a keyword starts with decides which words are keywords and nothing else: where tokens
begin and end, which of them are brackets, and how they are nested is the same for every
reader. So a source of words and brackets has one sketch, and every reader reads it as that
sketch with its own sorts of words, up to positions.

Key definitions: `Token.outline`, `Reader.SameOutline`, `Sketch`, `Sketch.node`.
Key theorems: `Reader.outline_tokens`, `Sketch.node_congr`, `Sketch.build_eq`.
-/
import LittleLisp.Proofs.Reading.RoundTrip

namespace LittleLisp

namespace Token

/-- The sort of a token as far as every reader agrees on it. -/
def bracketing (t : Token) : TokenType :=
  match t.type with
  | .literal => .identifier
  | .keyword => .identifier
  | type => type

/-- What every reader sees of a token. -/
def outline (t : Token) : TokenType × Text := (t.bracketing, t.text)

theorem outline_ofAtom (marker : Text) (p : Position) (word : Text) :
    (ofAtom marker p word).outline = (.identifier, word) := by
  obtain ⟨type, value, htype, hatom⟩ := Reader.ofAtom_eq marker word
  rw [hatom]
  rcases htype with rfl | rfl | rfl <;> rfl

end Token

namespace Reader

open Token (outline)

/-! ### Readers in step -/

/-- Two readers are in the same place and have read tokens of the same outlines. -/
structure SameOutline (s s' : State) : Prop where
  place : s'.place = s.place
  depth : s'.depth = s.depth
  mode : s'.mode = s.mode
  done : s'.done.map outline = s.done.map outline

variable {r r' : Reader} {s s' : State}

theorem outline_wordToken (start : Place) (seen : List Glyph) :
    (r'.wordToken start seen).outline = (r.wordToken start seen).outline := by
  rw [wordToken, wordToken, Token.outline_ofAtom, Token.outline_ofAtom]

theorem outline_bareToken (type : TokenType) (start : Place) (seen : List Glyph) :
    (r'.bareToken type start seen).outline = (r.bareToken type start seen).outline := rfl

/-- One more token of the same outline on both sides. -/
theorem SameOutline.push (h : SameOutline s s') {t t' : Token} (ht : t'.outline = t.outline)
    (place : Place) (depth : Nat) (mode : Mode) :
    SameOutline ⟨place, depth, mode, t :: s.done⟩ ⟨place, depth, mode, t' :: s'.done⟩ :=
  ⟨rfl, rfl, rfl, by rw [List.map_cons, List.map_cons, ht, h.done]⟩

theorem SameOutline.move (h : SameOutline s s') (place : Place) (depth : Nat) (mode : Mode) :
    SameOutline ⟨place, depth, mode, s.done⟩ ⟨place, depth, mode, s'.done⟩ :=
  ⟨rfl, rfl, rfl, h.done⟩

theorem SameOutline.startToken (h : SameOutline s s') (g : Glyph) :
    SameOutline (startToken r s g) (startToken r' s' g) := by
  unfold Reader.startToken
  rw [h.place, h.depth]
  dsimp only
  split_ifs
  · exact h.move _ _ _
  · exact h.move _ _ _
  · exact h.move _ _ _
  · exact h.push (outline_bareToken ..) _ _ _
  · exact h.push (outline_bareToken ..) _ _ _
  · exact h.push (outline_bareToken ..) _ _ _
  · exact h.move _ _ _
  · exact h.push (outline_bareToken ..) _ _ _
  · exact h.move _ _ _

theorem SameOutline.continueWord (h : SameOutline s s') (start : Place) (seen : List Glyph)
    (g : Glyph) :
    SameOutline (continueWord r s start seen g) (continueWord r' s' start seen g) := by
  unfold Reader.continueWord
  rw [h.place, h.depth]
  split_ifs
  · exact (h.push (outline_wordToken start seen) _ _ _).startToken g
  · exact h.move _ _ _

/-- The next glyph is read alike. -/
theorem SameOutline.step (h : SameOutline s s') (g : Glyph) :
    SameOutline (step r s g) (step r' s' g) := by
  unfold Reader.step
  rw [h.mode, h.place, h.depth]
  dsimp only
  split
  · exact h.startToken g
  · split_ifs
    · exact h.move _ _ _
    · exact h.continueWord _ _ g
  · exact h.continueWord _ _ g
  · split_ifs
    · exact h.move _ _ _
    · refine h.push ?_ _ _ _
      rfl
    · exact h.move _ _ _
    · exact h.move _ _ _
  · split_ifs
    · exact h.move _ _ _
    · exact h.move _ _ _
  · split_ifs
    · exact h.move _ _ _
    · exact h.move _ _ _

theorem SameOutline.run (h : SameOutline s s') :
    ∀ gs : List Glyph, SameOutline (run r s gs) (run r' s' gs) := by
  intro gs
  induction gs generalizing s s' with
  | nil => exact h
  | cons g gs ih => exact ih (h.step g)

theorem SameOutline.finish (h : SameOutline s s') :
    (finish r' s').map outline = (finish r s).map outline := by
  unfold Reader.finish
  rw [h.mode]
  have hpush {t t' : Token} (ht : t'.outline = t.outline) :
      (t' :: s'.done).reverse.map outline = (t :: s.done).reverse.map outline := by
    rw [List.map_reverse, List.map_reverse, List.map_cons, List.map_cons, ht, h.done]
  have hstay : s'.done.reverse.map outline = s.done.reverse.map outline := by
    rw [List.map_reverse, List.map_reverse, h.done]
  split
  · exact hstay
  · exact hpush (outline_wordToken ..)
  · exact hpush (outline_wordToken ..)
  · exact hpush (outline_bareToken ..)
  · exact hstay
  · exact hpush (outline_bareToken ..)

/-- Every reader reads tokens of the same outlines. -/
theorem outline_tokens (r r' : Reader) (source : Text) :
    (r'.tokens source).map outline = (r.tokens source).map outline :=
  (SameOutline.run ⟨rfl, rfl, rfl, rfl⟩ _).finish

/-- The token of an outline: a bracket, or a word as the marker sorts it. -/
def tokenOf (marker : Text) (x : TokenType × Text) : Token :=
  match x.1 with
  | .listBegin => ⟨.listBegin, .unknown, x.2, .absent⟩
  | .listEnd => ⟨.listEnd, .unknown, x.2, .absent⟩
  | _ => Token.ofAtom marker .unknown x.2

theorem unplaced_tokenOf (marker : Text) (x : TokenType × Text) :
    (tokenOf marker x).unplaced = tokenOf marker x := by
  obtain ⟨type, value, -, hatom⟩ := ofAtom_eq marker x.2
  unfold tokenOf
  split
  · rfl
  · rfl
  · rw [hatom]
    rfl

/-- Up to its position, a token that is neither a string nor invalid is known from its outline. -/
theorem Spelled.unplaced_eq {gs : List Glyph} {t : Token} (h : Spelled r gs t)
    (hvalid : t.type ≠ .invalid) (hquote : gs.head? ≠ some (.char '"')) :
    t.unplaced = tokenOf r.effectiveMarker t.outline := by
  cases h with
  | opening p h => rfl
  | closing p h => rfl
  | invalid p h => exact absurd rfl hvalid
  | string p h => exact absurd rfl hquote
  | word p h =>
    obtain ⟨type, value, -, hatom⟩ := ofAtom_eq r.effectiveMarker (Glyph.bytes gs)
    rw [Token.outline_ofAtom, tokenOf, hatom, hatom]
    rfl

end Reader

/-! ### Sketches -/

/-- A tree of words, whatever sorts they are. -/
inductive Sketch where
  | word (text : Text)
  | form (items : List Sketch)

namespace Sketch

open Reader (tokenOf)
open Token (outline unplaced roundOpening roundClosing)

mutual

/-- The tree that a reader with that marker makes of a sketch, positions left open. -/
def node (marker : Text) : Sketch → Node
  | .word text => .leaf (.ofAtom marker .unknown text)
  | .form items => .form (nodes marker items)

/-- The trees of some sketches. -/
def nodes (marker : Text) : List Sketch → List Node
  | [] => []
  | s :: ss => node marker s :: nodes marker ss

end

mutual

/-- A sketch as a sequence of brackets and words. -/
def outlines : Sketch → List (TokenType × Text)
  | .word text => [(.identifier, text)]
  | .form items =>
    (TokenType.listBegin, ("(" : Text)) :: outlinesOfAll items ++
      [(TokenType.listEnd, (")" : Text))]

/-- The brackets and words of some sketches. -/
def outlinesOfAll : List Sketch → List (TokenType × Text)
  | [] => []
  | s :: ss => outlines s ++ outlinesOfAll ss

end

mutual

/-- Markers that sort the words of a sketch alike make the same tree of it. -/
theorem node_congr {m m' : Text} : ∀ {s : Sketch},
    (∀ x ∈ s.outlines, m.extendedBy x.2 = m'.extendedBy x.2) → s.node m = s.node m'
  | .word text, h => by
    have htext : m.extendedBy text = m'.extendedBy text := h _ (List.mem_singleton_self _)
    rw [node, node, Token.ofAtom, Token.ofAtom, htext]
  | .form items, h => by
    rw [outlines] at h
    rw [node, node, nodes_congr fun x hx => h x (by simp [hx])]

theorem nodes_congr {m m' : Text} : ∀ {ss : List Sketch},
    (∀ x ∈ outlinesOfAll ss, m.extendedBy x.2 = m'.extendedBy x.2) → nodes m ss = nodes m' ss
  | [], _ => rfl
  | s :: ss, h => by
    rw [outlinesOfAll, List.forall_mem_append] at h
    rw [nodes, nodes, node_congr h.1, nodes_congr h.2]

end

mutual

/-- Written down, the tree of a sketch is the tokens of its brackets and words. -/
theorem linear_node (m : Text) : ∀ s : Sketch,
    Node.linear roundOpening roundClosing (s.node m) = s.outlines.map (tokenOf m)
  | .word text => by
    rw [node, Node.linear, outlines]
    rfl
  | .form items => by
    rw [node, Node.linear, linearAll_nodes m items, outlines, List.map_append, List.map_cons]
    rfl

theorem linearAll_nodes (m : Text) : ∀ ss : List Sketch,
    Node.linearAll roundOpening roundClosing (nodes m ss) = (outlinesOfAll ss).map (tokenOf m)
  | [] => by
    rw [nodes, Node.linearAll, outlinesOfAll, List.map_nil]
  | s :: ss => by
    rw [nodes, Node.linearAll, linear_node m s, linearAll_nodes m ss, outlinesOfAll,
      List.map_append]

end

theorem isLeaf_ofAtom (marker : Text) (p : Position) (word : Text) :
    (Token.ofAtom marker p word).IsLeaf := by
  obtain ⟨type, value, htype, hatom⟩ := Reader.ofAtom_eq marker word
  rw [hatom]
  rcases htype with rfl | rfl | rfl <;> exact ⟨by simp, by simp, by simp⟩

mutual

theorem every_node (m : Text) : ∀ s : Sketch, (s.node m).Every fun t =>
    t.IsLeaf ∧ t.unplaced = t
  | .word text => by
    rw [node]
    refine .leaf ⟨isLeaf_ofAtom .., ?_⟩
    obtain ⟨type, value, -, hatom⟩ := Reader.ofAtom_eq m text
    rw [hatom]
    rfl
  | .form items => by
    rw [node]
    exact .form (every_nodes m items)

theorem every_nodes (m : Text) : ∀ ss : List Sketch, ∀ n ∈ nodes m ss, n.Every fun t =>
    t.IsLeaf ∧ t.unplaced = t
  | [], n, hn => by
    rw [nodes] at hn
    exact absurd hn List.not_mem_nil
  | s :: ss, n, hn => by
    rw [nodes] at hn
    rcases List.mem_cons.mp hn with rfl | hn
    · exact every_node m s
    · exact every_nodes m ss n hn

end

/-- **Every reader reads a sketch in its own way.** A source that one reader reads as the brackets
and words of some sketches is read by any reader as the trees of these sketches, up to
positions. -/
theorem build_eq (module : Text) {r₀ : Reader} {source : Text} {sketches : List Sketch}
    (h : (r₀.tokens source).map outline = outlinesOfAll sketches)
    (hplain : ∀ x ∈ outlinesOfAll sketches,
      x.1 ≠ .invalid ∧ x.2.glyphs.head? ≠ some (.char '"')) (r : Reader) :
    (Forest.build module (r.tokens source)).map (Node.relabel unplaced) =
      nodes r.effectiveMarker sketches := by
  have houtline : (r.tokens source).map outline = outlinesOfAll sketches := by
    rw [Reader.outline_tokens r₀ r, h]
  have htokens : (r.tokens source).map unplaced =
      (outlinesOfAll sketches).map (tokenOf r.effectiveMarker) := by
    rw [← houtline, List.map_map]
    refine List.map_congr_left fun t ht => ?_
    have hmem : t.outline ∈ outlinesOfAll sketches := by
      rw [← houtline]
      exact List.mem_map_of_mem ht
    have hvalid : t.type ≠ .invalid := by
      intro hinvalid
      refine (hplain _ hmem).1 ?_
      rw [outline, Token.bracketing, hinvalid]
    exact (r.spelled_tokens source t ht).unplaced_eq hvalid (hplain _ hmem).2
  have hfixed : (nodes r.effectiveMarker sketches).map (Node.relabel unplaced) =
      nodes r.effectiveMarker sketches := by
    have heach : ∀ n ∈ nodes r.effectiveMarker sketches, n.relabel unplaced = n := fun n hn =>
      Node.relabel_eq_self ((every_nodes _ sketches n hn).imp fun _ ht => ht.2)
    rw [List.map_congr_left heach, List.map_id']
  have hlinear : (r.tokens source).map unplaced =
      (Node.linearAll roundOpening roundClosing (nodes r.effectiveMarker sketches)).map
        unplaced := by
    rw [linearAll_nodes, htokens, List.map_map]
    exact List.map_congr_left fun x _ => (Reader.unplaced_tokenOf _ x).symm
  obtain ⟨s, hs, hsame⟩ := Forest.extend_of_map_eq module (by rfl) (by rfl)
    (fun n hn => (every_nodes r.effectiveMarker sketches n hn).imp fun _ ht => ht.1)
    Token.type_unplaced hlinear
  rw [Forest.build_of_extend module hs, hsame, hfixed]

end Sketch

end LittleLisp
