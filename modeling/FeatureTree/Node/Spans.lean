import FeatureTree.Node.Basic

/-!
# Do the spans of a tree nest?

`checkSpans` goes through a tree and reports the first place where the spans
are not nested: a body or a child that runs past its node, or a child that
starts before the previous one has stopped. It looks at neighbours only, and
checks a child's own subtree before it turns to the next child.
-/

namespace FeatureTree

/-- The first fault that the check of a tree's spans finds. -/
inductive SpanFault
  /-- The implementation text is not within the node. -/
  | bodyEscapes (node : Kind) (body span : Span)
  /-- A child is not within the node. -/
  | childEscapes (node child : Kind) (childSpan span : Span)
  /-- A child starts before its previous sibling stops. -/
  | childOverlaps (node child : Kind) (childSpan : Span)
  deriving DecidableEq, Repr

/-- The sentence that reports a fault. -/
def SpanFault.message : SpanFault → String
  | bodyEscapes node body span => s!"{node} body {body} escapes node span {span}"
  | childEscapes node child childSpan span =>
    s!"{node} child {child} at {childSpan} escapes parent span {span}"
  | childOverlaps node child childSpan =>
    s!"{node} child {child} at {childSpan} overlaps or precedes its previous sibling"

namespace Node

mutual

/-- The first place where the spans of the tree are not nested, if any. -/
def spanFault? : Node → Option SpanFault
  | ⟨kind, _, children, span, body⟩ =>
    match body with
    | some b =>
      if span.contains b then childFault? kind span span.start children
      else some (.bodyEscapes kind b span)
    | none => childFault? kind span span.start children

/-- The first fault among the children of a node, where the next child may
start at `earliest` or later. -/
def childFault? (kind : Kind) (span : Span) (earliest : Nat) : List Node → Option SpanFault
  | [] => none
  | c :: cs =>
    if !span.contains c.span then some (.childEscapes kind c.kind c.span span)
    else if c.span.start < earliest then some (.childOverlaps kind c.kind c.span)
    else
      match spanFault? c with
      | some fault => some fault
      | none => childFault? kind span c.span.stop cs

end

/-- Checks that the spans of the whole tree nest. -/
def checkSpans (n : Node) : Except SpanFault Unit :=
  match n.spanFault? with
  | some fault => .error fault
  | none => .ok ()

end Node

end FeatureTree
