import FeatureTree.Node.Kind
import FeatureTree.Span

/-!
# Nodes of a feature structure tree

A node is the unit of superimposition: a declaration of some kind, perhaps
with a name, with the declarations inside it as ordered children, the span it
was read from, and the span of its implementation text if it has one.

Nothing in the type ties the spans of a node to those of its children; that
they nest is what `Node.checkSpans` decides.
-/

namespace FeatureTree

/-- A declaration and what it contains. -/
structure Node where
  kind : Kind
  name : Option String
  children : List Node
  span : Span
  /-- Span of the implementation text: a block, an expression body or an
  initializer. -/
  body : Option Span
  deriving BEq, Repr

namespace Node

/-- A node without children and body. -/
def leaf (kind : Kind) (name : Option String) (span : Span) : Node :=
  ⟨kind, name, [], span, none⟩

/-- A node without children. -/
def isTerminal (n : Node) : Bool := n.children.isEmpty

/-- The piece of the source that the node was read from. -/
def text? (n : Node) (source : List Char) : Option (List Char) := n.span.slice? source

/-- The direct children of a kind, in order. -/
def childrenOfKind (n : Node) (kind : Kind) : List Node :=
  n.children.filter (·.kind == kind)

mutual

/-- The same tree with every span moved to the right. -/
def shifted (offset : Nat) : Node → Node
  | ⟨kind, name, children, span, body⟩ =>
    ⟨kind, name, shiftedAll offset children, span.shifted offset, body.map (·.shifted offset)⟩

/-- The same trees with every span moved to the right. -/
def shiftedAll (offset : Nat) : List Node → List Node
  | [] => []
  | n :: ns => shifted offset n :: shiftedAll offset ns

end

mutual

/-- Equality of trees is decided part by part. -/
def decEq : (n m : Node) → Decidable (n = m)
  | ⟨kind, name, children, span, body⟩, ⟨kind', name', children', span', body'⟩ =>
    match decEqAll children children' with
    | .isTrue h =>
      decidable_of_iff (kind = kind' ∧ name = name' ∧ span = span' ∧ body = body')
        (by subst h; simp)
    | .isFalse h => .isFalse fun heq => h (by cases heq; rfl)

/-- Equality of lists of trees is decided tree by tree. -/
def decEqAll : (ns ms : List Node) → Decidable (ns = ms)
  | [], [] => .isTrue rfl
  | [], _ :: _ | _ :: _, [] => .isFalse nofun
  | n :: ns, m :: ms =>
    match decEq n m with
    | .isTrue h =>
      match decEqAll ns ms with
      | .isTrue hs => .isTrue (by rw [h, hs])
      | .isFalse hs => .isFalse fun heq => hs (by cases heq; rfl)
    | .isFalse h => .isFalse fun heq => h (by cases heq; rfl)

end

instance : DecidableEq Node := decEq

end Node

end FeatureTree
