import FeatureTree.Node.Spans
import FeatureTree.Proofs.Grammar.Nesting
import FeatureTree.Proofs.Grammar.Trim
import FeatureTree.Proofs.Node.Shape

/-!
# The order of nodes

Each span is trimmed on its own, and a node can be cut in front of what it
contains. What cannot be lost is where spans start: that is where a match starts,
and matches nest. So a list of trees has its *place* between two offsets
(`Node.Placed`), those at which the matches around it start and stop: all nodes
in it start there, one after the other, no tree runs into the next, and no span
is empty.

Trees come one behind the other (`Placed.append`), and a node has its place if
its children have theirs within the match (`Placed.node`). By induction over the
records of a match its root has its place (`contribute_placed`).
-/

namespace FeatureTree

namespace Text

/-- Where an end of a text starts. -/
def offset (text s : List Char) : Nat := byteLength text - byteLength s

variable {text s t : List Char}

theorem byteLength_le_of_suffix (h : t <:+ s) : byteLength t ≤ byteLength s := by
  obtain ⟨p, rfl⟩ := h
  rw [byteLength_append]
  exact Nat.le_add_left _ _

theorem offset_le_of_suffix (h : t <:+ s) : offset text s ≤ offset text t :=
  Nat.sub_le_sub_left (byteLength_le_of_suffix h) _

theorem offset_append (p s : List Char) : offset (p ++ s) s = byteLength p := by
  rw [offset, byteLength_append, Nat.add_sub_cancel]

theorem byteLength_pos (h : s ≠ []) : 0 < byteLength s := by
  obtain ⟨c, s, rfl⟩ := List.exists_cons_of_ne_nil h
  exact Nat.lt_of_lt_of_le c.utf8Size_pos (Nat.le_add_right _ _)

end Text

/-- The span covers a piece of a text, and not an empty one. -/
structure Span.Fits (text : List Char) (s : Span) : Prop where
  start_lt_stop : s.start < s.stop
  stop_le : s.stop ≤ Text.byteLength text
  slice_isSome : (s.slice? text).isSome = true

theorem Span.slice?_append (a b c : List Char) :
    Span.slice? ⟨Text.byteLength a, Text.byteLength (a ++ b)⟩ (a ++ b ++ c) = some b := by
  have hle : Text.byteLength a ≤ Text.byteLength (a ++ b) := by
    rw [Text.byteLength_append]
    exact Nat.le_add_right _ _
  simp only [slice?, Text.cut_append, Option.bind_eq_bind, Option.bind_some, if_pos hle]
  rfl

theorem Span.fits_of_append {b : List Char} (hb : b ≠ []) (a c : List Char) :
    Span.Fits (a ++ b ++ c) ⟨Text.byteLength a, Text.byteLength (a ++ b)⟩ where
  start_lt_stop := by
    have := Text.byteLength_pos hb
    simp only [Text.byteLength_append]
    omega
  stop_le := by
    simp only [Text.byteLength_append]
    omega
  slice_isSome := by rw [slice?_append]; rfl

/-- The span lies in a text, and both its ends lie between characters. -/
structure Span.LiesIn (text : List Char) (s : Span) : Prop where
  start_le_stop : s.start ≤ s.stop
  stop_le : s.stop ≤ Text.byteLength text
  start_cut : ∃ before after, Text.cut s.start text = some (before, after)
  stop_cut : ∃ before after, Text.cut s.stop text = some (before, after)

/-- What lies between two ends of a text lies in it. -/
theorem Span.liesIn_of_suffix {text s t : List Char} (hs : s <:+ text) (ht : t <:+ s) :
    Span.LiesIn text ⟨Text.offset text s, Text.offset text t⟩ where
  start_le_stop := Text.offset_le_of_suffix ht
  stop_le := Nat.sub_le _ _
  start_cut := by
    obtain ⟨before, rfl⟩ := hs
    exact ⟨before, s, by rw [Text.offset_append, Text.cut_append]⟩
  stop_cut := by
    obtain ⟨before, rfl⟩ := ht.trans hs
    exact ⟨before, t, by rw [Text.offset_append, Text.cut_append]⟩

namespace Node

/-! ## Walks -/

theorem preorderAll_append (ns ms : List Node) :
    preorderAll (ns ++ ms) = preorderAll ns ++ preorderAll ms := by
  induction ns with
  | nil => rfl
  | cons n ns ih => rw [List.cons_append, preorderAll, preorderAll, ih, List.append_assoc]

theorem preorder_eq (n : Node) : n.preorder = n :: preorderAll n.children := by
  cases n
  rw [preorder]

/-- A walk visits what is on its stack from the top down, each tree in the order of recursion. -/
theorem Walk.toList_eq_preorderAll (w : Walk) : w.toList = preorderAll w.stack.toList.reverse := by
  induction w using Walk.toList.induct with
  | case1 w hnext =>
      rw [toList_done hnext]
      rw [next?] at hnext
      split at hnext
      · next hback => rw [Array.back?_eq_none_iff.1 hback]; rfl
      · cases hnext
  | case2 w n v hnext ih =>
      obtain ⟨waiting, hstack, rfl⟩ := next?_eq_some_iff.1 hnext
      have hbefore : w.stack.toList.reverse = n :: waiting.toList.reverse := by
        rw [hstack, Array.toList_push, List.reverse_append]
        rfl
      -- What was reversed to go on the stack is in order again when read from the top.
      have hafter : (waiting ++ n.children.reverse).toList.reverse =
          n.children ++ waiting.toList.reverse := by
        rw [Array.toList_appendList, List.reverse_append, List.reverse_reverse]
      rw [toList_step hnext, ih, hbefore, hafter, preorderAll_append, preorderAll, preorder_eq]
      rfl

/-- A walk over a tree visits its nodes in order. -/
theorem toList_walk (n : Node) : n.walk.toList = n.preorder := by
  rw [walk, Walk.toList_eq_preorderAll]
  exact List.append_nil n.preorder

/-! ## Order -/

/-- The spans of a node and of its children are in order, as far as their starts
go: nothing starts in front of the node, no child runs into the next one, and no
span is empty. A child or body may well run past the node. -/
structure Ordered (text : List Char) (n : Node) : Prop where
  span : n.span.Fits text
  body : ∀ b ∈ n.body, b.Fits text ∧ n.span.start ≤ b.start
  children : ∀ c ∈ n.children, n.span.start ≤ c.span.start
  siblings : n.children.Pairwise fun c d => c.span.stop ≤ d.span.start

/-- The starts of nodes never decrease. -/
def StartsAscend (ns : List Node) : Prop := ns.Pairwise fun m n => m.span.start ≤ n.span.start

/-- Trees that have their place between two offsets of a text. -/
structure Placed (text : List Char) (lo hi : Nat) (ns : List Node) : Prop where
  ordered : ∀ m ∈ preorderAll ns, m.Ordered text
  starts : StartsAscend (preorderAll ns)
  range : ∀ m ∈ preorderAll ns, lo ≤ m.span.start ∧ m.span.start ≤ hi
  stops : ∀ c ∈ ns, c.span.stop ≤ hi
  siblings : ns.Pairwise fun c d => c.span.stop ≤ d.span.start

namespace Placed

variable {text : List Char} {lo mid hi hi' : Nat} {ns ms : List Node}

theorem nil : Placed text lo hi [] :=
  ⟨by simp [preorderAll], by simp [StartsAscend, preorderAll], by simp [preorderAll], by simp,
    .nil⟩

theorem mono (h : Placed text lo hi ns) (hle : hi ≤ hi') : Placed text lo hi' ns where
  ordered := h.ordered
  starts := h.starts
  range m hm := ⟨(h.range m hm).1, Nat.le_trans (h.range m hm).2 hle⟩
  stops c hc := Nat.le_trans (h.stops c hc) hle
  siblings := h.siblings

theorem lo_le_start (h : Placed text lo hi ns) : ∀ c ∈ ns, lo ≤ c.span.start := fun c hc =>
  (h.range c (mem_preorderAll.2 ⟨c, hc, c.self_mem_preorder⟩)).1

theorem append (hns : Placed text lo mid ns) (hms : Placed text mid hi ms) (hlo : lo ≤ mid)
    (hhi : mid ≤ hi) : Placed text lo hi (ns ++ ms) where
  ordered := by
    rw [preorderAll_append]
    exact List.forall_mem_append.2 ⟨hns.ordered, hms.ordered⟩
  starts := by
    rw [preorderAll_append]
    exact List.pairwise_append.2 ⟨hns.starts, hms.starts, fun m hm n hn =>
      Nat.le_trans (hns.range m hm).2 (hms.range n hn).1⟩
  range := by
    rw [preorderAll_append]
    refine List.forall_mem_append.2 ⟨fun m hm => ?_, fun m hm => ?_⟩
    · exact ⟨(hns.range m hm).1, Nat.le_trans (hns.range m hm).2 hhi⟩
    · exact ⟨Nat.le_trans hlo (hms.range m hm).1, (hms.range m hm).2⟩
  stops := List.forall_mem_append.2
    ⟨fun c hc => Nat.le_trans (hns.stops c hc) hhi, hms.stops⟩
  siblings := List.pairwise_append.2 ⟨hns.siblings, hms.siblings, fun c hc d hd =>
    Nat.le_trans (hns.stops c hc) (hms.lo_le_start d hd)⟩

/-- A node has its place if it starts the match in which its children have
theirs. -/
theorem node {n : Node} (h : Placed text lo hi n.children) (hstart : n.span.start = lo)
    (hspan : n.span.Fits text) (hstop : n.span.stop ≤ hi)
    (hbody : ∀ b ∈ n.body, b.Fits text ∧ lo ≤ b.start) : Placed text lo hi [n] := by
  have hpreorder : preorderAll [n] = n :: preorderAll n.children := by
    obtain ⟨kind, name, children, span, body⟩ := n
    rw [preorderAll, preorderAll, List.append_nil, preorder]
  have hle : lo ≤ hi := hstart ▸ Nat.le_trans (Nat.le_of_lt hspan.start_lt_stop) hstop
  constructor
  · rw [hpreorder]
    refine List.forall_mem_cons.2 ⟨⟨hspan, fun b hb => ?_, fun c hc => ?_, h.siblings⟩, h.ordered⟩
    · exact hstart ▸ hbody b hb
    · exact hstart ▸ h.lo_le_start c hc
  · rw [hpreorder]
    exact List.pairwise_cons.2 ⟨fun m hm => hstart ▸ (h.range m hm).1, h.starts⟩
  · rw [hpreorder]
    exact List.forall_mem_cons.2 ⟨⟨hstart ▸ Nat.le_refl _, hstart ▸ hle⟩, h.range⟩
  · exact List.forall_mem_singleton.2 hstop
  · exact List.pairwise_singleton _ _

end Placed

end Node

/-- The children of a draft have their place, and its body starts there. -/
structure Draft.Placed (text : List Char) (lo hi : Nat) (d : Draft) : Prop where
  children : Node.Placed text lo hi d.children
  body : ∀ b ∈ d.body, b.Fits text ∧ lo ≤ b.start

namespace Draft.Placed

variable {text : List Char} {lo mid hi : Nat} {d : Draft}

theorem empty : Draft.empty.Placed text lo hi := ⟨.nil, by simp [Draft.empty]⟩

theorem mono {hi' : Nat} (h : d.Placed text lo hi) (hle : hi ≤ hi') : d.Placed text lo hi' :=
  ⟨h.children.mono hle, h.body⟩

theorem addChild {n : Node} (h : d.Placed text lo mid) (hn : Node.Placed text mid hi [n])
    (hlo : lo ≤ mid) (hhi : mid ≤ hi) : (d.addChild n).Placed text lo hi :=
  ⟨h.children.append hn hlo hhi, h.body⟩

theorem addName (h : d.Placed text lo mid) {kind : Kind} {word : String} {span : Span}
    (hspan : span.Fits text) (hstart : span.start = mid) (hstop : span.stop ≤ hi)
    (hlo : lo ≤ mid) : (d.addName kind word span).Placed text lo hi := by
  have hhi : mid ≤ hi := hstart ▸ Nat.le_trans (Nat.le_of_lt hspan.start_lt_stop) hstop
  rw [Draft.addName]
  split
  · exact h.mono hhi
  · dsimp only
    split
    · have hleaf : Node.Placed text mid hi [.leaf .identifier (some word) span] :=
        .node .nil hstart hspan hstop fun b hb => absurd hb (Option.not_mem_none b)
      exact ⟨(h.addChild hleaf hlo hhi).children, h.body⟩
    · exact ⟨(h.mono hhi).children, h.body⟩

theorem addBody (h : d.Placed text lo hi) {span : Span} (hspan : span.Fits text)
    (hlo : lo ≤ span.start) : (d.addBody span).Placed text lo hi := by
  refine ⟨h.children, fun b hb => ?_⟩
  rw [Draft.addBody, Option.mem_def, Option.some.injEq] at hb
  cases hd : d.body with
  | none => rw [hd] at hb; cases hb; exact ⟨hspan, hlo⟩
  | some b' => rw [hd] at hb; cases hb; exact h.body b' hd

end Draft.Placed

/-- Records of the role have a span. -/
def Role.hasSpan : Role → Bool
  | .node _ | .name | .body => true
  | .fallbackName | .transparent | .hidden => false

namespace SnippetGrammar

variable {R : Type} {g : SnippetGrammar R}

/-- Every rule whose records have spans takes at least one character. -/
def SpansConsume (g : SnippetGrammar R) : Prop :=
  ∀ r, (g.role r).hasSpan = true → g.consuming r = true

/-- What a span leaves out at the end of a match. -/
theorem spanOf_eq (p piece after : List Char) :
    g.spanOf (Text.byteLength (p ++ (piece ++ after))) (piece ++ after) after =
      ⟨Text.byteLength p, Text.byteLength (p ++ g.trivia.trim piece)⟩ := by
  rw [spanOf, Forest.taken_append, Text.byteLength_append p (piece ++ after), Nat.add_sub_cancel,
    Text.byteLength_append]

/-- The span of a solid record starts where the record does, and stops with it
or in front of that. -/
theorem spanOf_placed (ht : g.trivia.Steady) {text before after : List Char}
    (hbefore : before <:+ text) (hafter : after <:+ before)
    (hink : g.between .spaced before = before) (hlen : after.length < before.length) :
    (g.spanOf (Text.byteLength text) before after).Fits text ∧
      (g.spanOf (Text.byteLength text) before after).start = Text.offset text before ∧
      (g.spanOf (Text.byteLength text) before after).stop ≤ Text.offset text after := by
  obtain ⟨p, rfl⟩ := hbefore
  obtain ⟨piece, rfl⟩ := hafter
  have hpiece : piece ≠ [] := by
    rintro rfl
    exact absurd hlen (Nat.lt_irrefl _)
  obtain ⟨tail, htail, -⟩ := g.trivia.trim_append piece
  have hfits := Span.fits_of_append (Trivia.trim_ne_nil ht hpiece hink) p (tail ++ after)
  have htext : p ++ (piece ++ after) = p ++ g.trivia.trim piece ++ (tail ++ after) := by
    conv => lhs; rw [htail]
    simp only [List.append_assoc]
  rw [spanOf_eq]
  refine ⟨htext ▸ hfits, (Text.offset_append p _).symm, ?_⟩
  rw [htext, ← List.append_assoc _ tail after, Text.offset_append]
  simp only [Text.byteLength_append]
  omega

/-- What the records of a match contribute has its place in the match. -/
theorem contribute_placed (ht : g.trivia.Steady) (hspans : g.SpansConsume)
    {text : List Char} {f : Forest R} {s t : List Char} (hs : s <:+ text) (hf : f.Within s t)
    (hsolid : f.All g.Solid) {kind : Kind} {lo : Nat} {d : Draft}
    (hlo : lo ≤ Text.offset text s) (hd : d.Placed text lo (Text.offset text s)) :
    (g.contribute (Text.byteLength text) kind f d).Placed text lo (Text.offset text t) := by
  induction f generalizing s t kind lo d with
  | nil => exact hd.mono (Text.offset_le_of_suffix hf)
  | cons r before after inner next ihInner ihNext =>
      obtain ⟨hbefore, hinner, hnext⟩ := hf
      obtain ⟨⟨hink, hconsumes⟩, hsolidInner, hsolidNext⟩ := hsolid
      have hbeforeText := hbefore.trans hs
      have hafter : after <:+ before := hinner.suffix
      have hlo' : lo ≤ Text.offset text before :=
        Nat.le_trans hlo (Text.offset_le_of_suffix hbefore)
      have hle : Text.offset text before ≤ Text.offset text after :=
        Text.offset_le_of_suffix hafter
      have hd' : d.Placed text lo (Text.offset text before) :=
        hd.mono (Text.offset_le_of_suffix hbefore)
      have hspan := fun hr => spanOf_placed ht hbeforeText hafter hink (hconsumes (hspans r hr))
      rw [contribute]
      refine ihNext (hafter.trans hbeforeText) hnext hsolidNext (Nat.le_trans hlo' hle) ?_
      cases hrole : g.role r with
      | node k =>
          obtain ⟨hfits, hstart, hstop⟩ := hspan (by rw [hrole]; rfl)
          have hchildren : (g.contribute (Text.byteLength text) k inner .empty).Placed text
              (Text.offset text before) (Text.offset text after) :=
            ihInner hbeforeText hinner hsolidInner (Nat.le_refl _) .empty
          exact hd'.addChild (.node hchildren.children hstart hfits hstop hchildren.body) hlo' hle
      | name =>
          obtain ⟨hfits, hstart, hstop⟩ := hspan (by rw [hrole]; rfl)
          exact hd'.addName hfits hstart hstop hlo'
      | body =>
          obtain ⟨hfits, hstart, -⟩ := hspan (by rw [hrole]; rfl)
          exact (hd'.mono hle).addBody hfits (hstart ▸ hlo')
      | fallbackName => exact ⟨(hd'.mono hle).children, hd'.body⟩
      | transparent => exact ihInner hbeforeText hinner hsolidInner hlo' hd'
      | hidden => exact hd'.mono hle

end SnippetGrammar

end FeatureTree
