import FeatureTree.Proofs.Grammar.Whitespace
import FeatureTree.Proofs.Node.Faults

/-!
# Spans nest where there are no comments

A node loses the whitespace at the end of its match, and what is inside it loses the
whitespace at the end of its own. Both cuts look at the same characters, so what is
inside does not get past the node (`spanOf_stop_le`). There is one exception: a
match that ends in the midst of a blank keeps the first half of it. Records are *neat*
if they do not.

With `contribute_nested`, an induction over records, that settles the check of spans.
-/

namespace FeatureTree

namespace Node

/-- No child and no body runs past the node. -/
structure Nested (n : Node) : Prop where
  children : ∀ c ∈ n.children, c.span.stop ≤ n.span.stop
  body : ∀ b ∈ n.body, b.stop ≤ n.span.stop

theorem Nested.not_runsPast {n : Node} (h : n.Nested) (fault : SpanFault) :
    ¬ n.RunsPast fault := by
  rintro (⟨b, hb, hlt, -⟩ | ⟨c, hc, hlt, -⟩)
  · exact absurd (h.body b hb) (Nat.not_le_of_lt hlt)
  · exact absurd (h.children c hc) (Nat.not_le_of_lt hlt)

/-- The check of spans finds nothing in a tree whose nodes are in order and nested. -/
theorem checkSpans_of_nested {text : List Char} {n : Node}
    (hordered : ∀ m ∈ n.preorder, m.Ordered text) (hnested : ∀ m ∈ n.preorder, m.Nested) :
    n.checkSpans = .ok () := by
  cases h : n.checkSpans with
  | ok u => rfl
  | error fault =>
      obtain ⟨m, hm, hpast⟩ := runsPast_of_checkSpans hordered h
      exact absurd hpast ((hnested m hm).not_runsPast fault)

end Node

/-- Nothing in a draft runs past an offset, and the nodes in it are nested. -/
structure Draft.Nested (hi : Nat) (d : Draft) : Prop where
  children : ∀ c ∈ d.children, c.span.stop ≤ hi
  body : ∀ b ∈ d.body, b.stop ≤ hi
  below : ∀ m ∈ Node.preorderAll d.children, m.Nested

namespace Draft.Nested

variable {hi : Nat} {d : Draft} {n : Node} {kind : Kind} {span : Span}

theorem empty : Draft.empty.Nested hi :=
  ⟨by simp [Draft.empty], by simp [Draft.empty], by simp [Draft.empty, Node.preorderAll]⟩

theorem addChild (h : d.Nested hi) (hstop : n.span.stop ≤ hi)
    (hn : ∀ m ∈ n.preorder, m.Nested) : (d.addChild n).Nested hi where
  children := List.forall_mem_append.2 ⟨h.children, List.forall_mem_singleton.2 hstop⟩
  body := h.body
  below := by
    rw [Draft.addChild, Node.preorderAll_append, Node.preorderAll, Node.preorderAll,
      List.append_nil]
    exact List.forall_mem_append.2 ⟨h.below, hn⟩

theorem addName (h : d.Nested hi) (word : String) (hstop : span.stop ≤ hi) :
    (d.addName kind word span).Nested hi := by
  have hleaf : ∀ m ∈ (Node.leaf .identifier (some word) span).preorder, m.Nested := by
    intro m hm
    rw [Node.leaf, Node.preorder, Node.preorderAll] at hm
    rw [List.mem_singleton.1 hm]
    exact ⟨fun _ hc => absurd hc List.not_mem_nil, fun b hb => absurd hb (Option.not_mem_none b)⟩
  rw [Draft.addName]
  split
  · exact h
  · dsimp only
    split
    · exact ⟨(h.addChild hstop hleaf).children, h.body, (h.addChild hstop hleaf).below⟩
    · exact ⟨h.children, h.body, h.below⟩

theorem addBody (h : d.Nested hi) (hstop : span.stop ≤ hi) : (d.addBody span).Nested hi := by
  refine ⟨h.children, fun b hb => ?_, h.below⟩
  rw [Draft.addBody, Option.mem_def, Option.some.injEq] at hb
  cases hd : d.body with
  | none => rw [hd] at hb; cases hb; exact hstop
  | some b' => rw [hd] at hb; cases hb; exact h.body b' hd

/-- A draft that is nested within the node it becomes makes nested nodes. -/
theorem finish (h : d.Nested span.stop) : ∀ m ∈ (d.finish kind span).preorder, m.Nested := by
  rw [Draft.finish, Node.preorder]
  exact List.forall_mem_cons.2 ⟨⟨h.children, h.body⟩, h.below⟩

end Draft.Nested

namespace SnippetGrammar

variable {R : Type} {g : SnippetGrammar R} {text s t before after before₀ after₀ : List Char}

/-- The match does not end in the midst of a blank. -/
def Unbroken (g : SnippetGrammar R) (before after : List Char) : Prop :=
  ∀ x c, before = x ++ c :: after → (g.trivia.blank (c :: after)).isSome = true →
    (g.trivia.blank [c]).isSome = true

/-- If the record has a span, it is more than whitespace and does not end in the midst
of a blank. -/
def Neat (g : SnippetGrammar R) (r : R) (before after : List Char) (_ : Forest R) : Prop :=
  (g.role r).hasSpan = true →
    g.trivia.blanks.trim (Forest.taken before after) ≠ [] ∧ g.Unbroken before after

/-- The span of a match stops with the span of a match around it, or in front of
that. -/
theorem spanOf_stop_le (ht : g.trivia.Steady) (hw : g.trivia.blanks.Whitespace)
    (hopen : g.trivia.Uncommented text) (h₀ : before₀ <:+ text) (hbefore : before <:+ before₀)
    (hafter : after <:+ before) (hafter₀ : after₀ <:+ after)
    (hne : g.trivia.blanks.trim (Forest.taken before after) ≠ [])
    (hunbroken : g.Unbroken before after) :
    (g.spanOf (Text.byteLength text) before after).stop ≤
      (g.spanOf (Text.byteLength text) before₀ after₀).stop := by
  obtain ⟨pre, rfl⟩ := h₀
  obtain ⟨a, rfl⟩ := hbefore
  obtain ⟨p, rfl⟩ := hafter
  obtain ⟨b, rfl⟩ := hafter₀
  rw [Forest.taken_append] at hne
  have hsub : ∀ {v}, v <:+: pre ++ (a ++ (p ++ (b ++ after₀))) →
      g.trivia.trim v = g.trivia.blanks.trim v := fun hv => (hopen.sub hv).trim ht
  have hinner : pre ++ (a ++ (p ++ (b ++ after₀))) = (pre ++ a) ++ (p ++ (b ++ after₀)) := by
    simp only [List.append_assoc]
  have houter : a ++ (p ++ (b ++ after₀)) = (a ++ p ++ b) ++ after₀ := by
    simp only [List.append_assoc]
  -- The last character of the match is not the first half of a blank of the outer one.
  have hlast : ∀ x c, p = x ++ [c] → (g.trivia.blanks.blank (c :: b)).isSome = true →
      (g.trivia.blanks.blank [c]).isSome = true := by
    intro x c hp hsome
    obtain ⟨y, hy⟩ := Option.isSome_iff_exists.1 hsome
    obtain ⟨z, hz, -⟩ := ht.blanks.goesOn after₀ hy
    refine hunbroken x c (by rw [hp, List.append_assoc]; rfl) ?_
    rw [List.cons_append] at hz
    rw [hz]
    rfl
  obtain ⟨rest, hrest⟩ := hw.trim_prefix (q := a) hne hlast
  have hstop : (g.spanOf (Text.byteLength (pre ++ (a ++ (p ++ (b ++ after₀)))))
      (p ++ (b ++ after₀)) (b ++ after₀)).stop =
        Text.byteLength (pre ++ (a ++ g.trivia.blanks.trim p)) := by
    rw [hinner, spanOf_eq, hsub ⟨pre ++ a, b ++ after₀, by simp only [List.append_assoc]⟩,
      List.append_assoc]
  have hstop₀ : (g.spanOf (Text.byteLength (pre ++ (a ++ (p ++ (b ++ after₀)))))
      (a ++ (p ++ (b ++ after₀))) after₀).stop =
        Text.byteLength (pre ++ g.trivia.blanks.trim (a ++ p ++ b)) := by
    rw [houter, spanOf_eq, hsub ⟨pre, after₀, by simp only [List.append_assoc]⟩]
  rw [hstop, hstop₀, ← hrest]
  simp only [Text.byteLength_append]
  omega

/-- What the records of a match contribute is nested within a match around them. -/
theorem contribute_nested (ht : g.trivia.Steady) (hw : g.trivia.blanks.Whitespace)
    (hopen : g.trivia.Uncommented text) {f : Forest R} (hf : f.Within s t)
    (hneat : f.All g.Neat) (h₀ : before₀ <:+ text) (hs : s <:+ before₀) (hafter₀ : after₀ <:+ t)
    {kind : Kind} {d : Draft}
    (hd : d.Nested (g.spanOf (Text.byteLength text) before₀ after₀).stop) :
    (g.contribute (Text.byteLength text) kind f d).Nested
      (g.spanOf (Text.byteLength text) before₀ after₀).stop := by
  induction f generalizing s t before₀ after₀ kind d with
  | nil => exact hd
  | cons r before after inner next ihInner ihNext =>
      obtain ⟨hbefore, hinner, hnext⟩ := hf
      obtain ⟨hr, hneatInner, hneatNext⟩ := hneat
      have hbefore₀ := hbefore.trans hs
      have hafter : after <:+ before := hinner.suffix
      have houter : after₀ <:+ after := hafter₀.trans hnext.suffix
      have hstop : (g.role r).hasSpan = true → _ := fun h =>
        spanOf_stop_le ht hw hopen h₀ hbefore₀ hafter houter (hr h).1 (hr h).2
      rw [contribute]
      refine ihNext hnext hneatNext h₀ (hafter.trans hbefore₀) hafter₀ ?_
      cases hrole : g.role r with
      | node k =>
          -- Inside a node it is the node itself that has to contain everything.
          have hown : (g.contribute (Text.byteLength text) k inner .empty).Nested
              (g.spanOf (Text.byteLength text) before after).stop :=
            ihInner hinner hneatInner (hbefore₀.trans h₀) (List.suffix_refl before)
              (List.suffix_refl after) .empty
          exact hd.addChild (hstop (by rw [hrole]; rfl)) hown.finish
      | name => exact hd.addName _ (hstop (by rw [hrole]; rfl))
      | body => exact hd.addBody (hstop (by rw [hrole]; rfl))
      | fallbackName => exact ⟨hd.children, hd.body, hd.below⟩
      | transparent => exact ihInner hinner hneatInner h₀ hbefore₀ houter hd
      | hidden => exact hd

end SnippetGrammar

end FeatureTree
