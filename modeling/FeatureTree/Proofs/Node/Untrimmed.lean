import Mathlib.Data.List.Forall2
import FeatureTree.Proofs.Grammar.Whitespace
import FeatureTree.Proofs.Node.Order

/-!
# The tree of the matches

A grammar that drops nothing between the parts of a match cuts nothing off the end of
a span either, so from the same records it makes the tree in which every span is the
whole match (`SnippetGrammar.untrimmed`). The tree of the grammar itself is this one
with whitespace taken off the ends of its spans, if there are no comments
(`root?_trims`).
-/

namespace FeatureTree

namespace Trivia

variable {t : Trivia} {s : List Char}

/-- A text is cut at the first character from which only blanks and comments follow. -/
theorem trim_spec (t : Trivia) (s : List Char) :
    ∃ tail, s = t.trim s ++ tail ∧ t.isTrivia tail = true ∧
      ∀ q, q <:+ t.trim s → q ≠ [] → t.isTrivia (q ++ tail) = false := by
  induction s with
  | nil => exact ⟨[], rfl, rfl, fun q hq hne => absurd (List.suffix_nil.1 hq) hne⟩
  | cons c s ih =>
      rw [trim]
      split
      · next h => exact ⟨c :: s, rfl, h, fun q hq hne => absurd (List.suffix_nil.1 hq) hne⟩
      · next h =>
          obtain ⟨tail, hs, htail, hfirst⟩ := ih
          refine ⟨tail, by rw [List.cons_append, ← hs], htail, fun q hq hne => ?_⟩
          rcases List.suffix_cons_iff.1 hq with rfl | hq
          · rw [List.cons_append, ← hs]
            exact Bool.eq_false_iff.2 h
          · exact hfirst q hq hne

/-- Nothing is dropped. -/
def nothing : Trivia := ⟨fun _ => none, fun _ => none⟩

theorem trim_nothing (s : List Char) : nothing.trim s = s := by
  induction s with
  | nil => rfl
  | cons c s ih => rw [trim, isTrivia, skip_of_none rfl, if_neg (by simp), ih]

end Trivia

/-- The span is the other one without the whitespace at its end. -/
def Span.Trims (w : Trivia) (text : List Char) (s whole : Span) : Prop :=
  ∃ a piece tail b, text = a ++ (piece ++ tail ++ b) ∧
    s = ⟨Text.byteLength a, Text.byteLength (a ++ piece)⟩ ∧
    whole = ⟨Text.byteLength a, Text.byteLength (a ++ (piece ++ tail))⟩ ∧
    w.isTrivia tail = true ∧ ∀ q, q <:+ piece → q ≠ [] → w.isTrivia (q ++ tail) = false

/-- The nodes differ in the whitespace at the ends of their spans only. -/
structure Node.Trims (w : Trivia) (text : List Char) (n whole : Node) : Prop where
  kind : n.kind = whole.kind
  name : n.name = whole.name
  children : n.children.length = whole.children.length
  span : n.span.Trims w text whole.span
  body : Option.Rel (Span.Trims w text) n.body whole.body

/-- The trees differ in the whitespace at the ends of spans only. -/
def Node.TrimsAll (w : Trivia) (text : List Char) (ns wholes : List Node) : Prop :=
  ns.length = wholes.length ∧
    List.Forall₂ (Node.Trims w text) (preorderAll ns) (preorderAll wholes)

namespace Node.TrimsAll

variable {w : Trivia} {text : List Char} {ns wholes : List Node} {n whole : Node}

theorem nil : TrimsAll w text [] [] := ⟨rfl, .nil⟩

theorem append_singleton (h : TrimsAll w text ns wholes)
    (hn : List.Forall₂ (Node.Trims w text) n.preorder whole.preorder) :
    TrimsAll w text (ns ++ [n]) (wholes ++ [whole]) := by
  refine ⟨by rw [List.length_append, List.length_append, h.1]; rfl, ?_⟩
  rw [preorderAll_append, preorderAll_append, preorderAll, preorderAll, preorderAll, preorderAll,
    List.append_nil, List.append_nil]
  exact List.rel_append h.2 hn

theorem head?_name (h : TrimsAll w text ns wholes) :
    ns.head?.bind (·.name) = wholes.head?.bind (·.name) := by
  obtain ⟨hlength, hpreorder⟩ := h
  cases ns with
  | nil => rw [List.eq_nil_of_length_eq_zero hlength.symm]
  | cons n ns =>
      cases wholes with
      | nil => cases hlength
      | cons m ms =>
          obtain ⟨kind, name, children, span, body⟩ := n
          obtain ⟨kind', name', children', span', body'⟩ := m
          rw [preorderAll, preorderAll, preorder, preorder, List.cons_append,
            List.cons_append, List.forall₂_cons] at hpreorder
          exact hpreorder.1.name

end Node.TrimsAll

/-- The drafts differ in the whitespace at the ends of spans only. -/
structure Draft.Trims (w : Trivia) (text : List Char) (d whole : Draft) : Prop where
  name : d.name = whole.name
  fallback : d.fallback = whole.fallback
  children : Node.TrimsAll w text d.children whole.children
  body : Option.Rel (Span.Trims w text) d.body whole.body

namespace Draft.Trims

variable {w : Trivia} {text : List Char} {d d' : Draft} {n n' : Node} {kind : Kind}
  {s s' : Span}

theorem empty : Draft.empty.Trims w text .empty := ⟨rfl, rfl, .nil, .none⟩

theorem addChild (h : d.Trims w text d')
    (hn : List.Forall₂ (Node.Trims w text) n.preorder n'.preorder) :
    (d.addChild n).Trims w text (d'.addChild n') :=
  ⟨h.name, h.fallback, h.children.append_singleton hn, h.body⟩

theorem addName (h : d.Trims w text d') (word : String) (hs : s.Trims w text s') :
    (d.addName kind word s).Trims w text (d'.addName kind word s') := by
  have hleaf : List.Forall₂ (Node.Trims w text)
      (Node.leaf .identifier (some word) s).preorder
      (Node.leaf .identifier (some word) s').preorder :=
    .cons ⟨rfl, rfl, rfl, hs, .none⟩ .nil
  rw [Draft.addName, Draft.addName, h.name]
  split
  · exact h
  · dsimp only
    split
    · exact ⟨rfl, h.fallback, (h.addChild hleaf).children, h.body⟩
    · exact ⟨rfl, h.fallback, h.children, h.body⟩

theorem addFallback (h : d.Trims w text d') (word : String) :
    (d.addFallback word).Trims w text (d'.addFallback word) :=
  ⟨h.name, by rw [Draft.addFallback, Draft.addFallback, h.fallback], h.children, h.body⟩

theorem addBody (h : d.Trims w text d') (hs : s.Trims w text s') :
    (d.addBody s).Trims w text (d'.addBody s') := by
  refine ⟨h.name, h.fallback, h.children, ?_⟩
  have hbody := h.body
  rw [Draft.addBody, Draft.addBody]
  dsimp only
  generalize d.body = b, d'.body = b' at hbody ⊢
  cases hbody with
  | none => exact .some hs
  | some hfirst => exact .some hfirst

theorem finish (kind : Kind) (h : d.Trims w text d') (hs : s.Trims w text s') :
    List.Forall₂ (Node.Trims w text) (d.finish kind s).preorder (d'.finish kind s').preorder := by
  have hname : d.finalName kind = d'.finalName kind := by
    rw [Draft.finalName, Draft.finalName, h.name, h.children.head?_name, h.fallback]
  rw [Draft.finish, Draft.finish, Node.preorder, Node.preorder]
  exact .cons ⟨rfl, hname, h.children.1, hs, h.body⟩ h.children.2

end Draft.Trims

namespace SnippetGrammar

variable {R : Type} {g : SnippetGrammar R} {text s t before after : List Char}

/-- The grammar with nothing to drop: it makes of records the tree in which each span
is a whole match. -/
def untrimmed (g : SnippetGrammar R) : SnippetGrammar R := { g with trivia := .nothing }

theorem spanOf_trims (ht : g.trivia.Steady) (hopen : g.trivia.Uncommented text)
    (hbefore : before <:+ text) (hafter : after <:+ before) :
    (g.spanOf (Text.byteLength text) before after).Trims g.trivia.blanks text
      (g.untrimmed.spanOf (Text.byteLength text) before after) := by
  obtain ⟨a, rfl⟩ := hbefore
  obtain ⟨p, rfl⟩ := hafter
  obtain ⟨tail, hp, htail, hfirst⟩ := g.trivia.blanks.trim_spec p
  have htrim : g.trivia.trim p = g.trivia.blanks.trim p :=
    (hopen.sub ⟨a, after, List.append_assoc _ _ _⟩).trim ht
  have hwhole : g.untrimmed.trivia.trim p = p := Trivia.trim_nothing p
  rw [spanOf_eq, spanOf_eq, htrim, hwhole]
  exact ⟨a, g.trivia.blanks.trim p, tail, after, by rw [← hp], rfl, by rw [← hp], htail, hfirst⟩

/-- The records contribute the same to both trees, apart from whitespace. -/
theorem contribute_trims (ht : g.trivia.Steady) (hopen : g.trivia.Uncommented text)
    {f : Forest R} (hs : s <:+ text) (hf : f.Within s t) {kind : Kind} {d d' : Draft}
    (hd : d.Trims g.trivia.blanks text d') :
    (g.contribute (Text.byteLength text) kind f d).Trims g.trivia.blanks text
      (g.untrimmed.contribute (Text.byteLength text) kind f d') := by
  induction f generalizing s t kind d d' with
  | nil => exact hd
  | cons r before after inner next ihInner ihNext =>
      obtain ⟨hbefore, hinner, hnext⟩ := hf
      have hbeforeText := hbefore.trans hs
      have hspan := spanOf_trims ht hopen hbeforeText hinner.suffix
      rw [contribute, contribute]
      refine ihNext (hinner.suffix.trans hbeforeText) hnext ?_
      rw [show g.untrimmed.role r = g.role r from rfl]
      cases g.role r with
      | node k => exact hd.addChild ((ihInner hbeforeText hinner .empty).finish k hspan)
      | name => exact hd.addName _ hspan
      | fallbackName => exact hd.addFallback _
      | body => exact hd.addBody hspan
      | transparent => exact ihInner hbeforeText hinner hd
      | hidden => exact hd

theorem root?_trims (ht : g.trivia.Steady) (hopen : g.trivia.Uncommented text) {f : Forest R}
    (hs : s <:+ text) (hf : f.Within s t) :
    Option.Rel
      (fun n whole => List.Forall₂ (Node.Trims g.trivia.blanks text) n.preorder whole.preorder)
      (g.root? (Text.byteLength text) f) (g.untrimmed.root? (Text.byteLength text) f) := by
  induction f generalizing s t with
  | nil => exact .none
  | cons r before after inner next ihInner ihNext =>
      obtain ⟨hbefore, hinner, hnext⟩ := hf
      have hbeforeText := hbefore.trans hs
      have hrest := ihNext (hinner.suffix.trans hbeforeText) hnext
      rw [root?, root?, show g.untrimmed.role r = g.role r from rfl]
      cases g.role r with
      | node kind =>
          have hspan := spanOf_trims ht hopen hbeforeText hinner.suffix
          exact .some ((contribute_trims ht hopen hbeforeText hinner .empty).finish kind hspan)
      | transparent =>
          have hfirst := ihInner hbeforeText hinner
          generalize g.root? (Text.byteLength text) inner = a,
            g.untrimmed.root? (Text.byteLength text) inner = b at hfirst
          cases hfirst with
          | none => exact hrest
          | some htrims => exact .some htrims
      | name | fallbackName | body | hidden => exact hrest

end SnippetGrammar

end FeatureTree
