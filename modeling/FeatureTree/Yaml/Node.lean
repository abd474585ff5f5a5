import FeatureTree.Yaml.Tag

/-!
# YAML nodes

A document is a node: a scalar, a list, a map, or an alias that stands for
another node. Nodes keep what was written in front of them and how scalars are
written, because what a scalar means depends on who asks.

Nodes are found by the numbers of their anchors. Numbers are given in the order
of the text; where two nodes share one, it belongs to the later node.
-/

namespace FeatureTree.Yaml

/-- What was written in front of a node. -/
structure Marks where
  /-- The number of the anchor. -/
  anchor : Option Nat
  tag : Option Tag
  deriving DecidableEq, Repr

namespace Marks

/-- Nothing in front of a node. -/
def none : Marks := ⟨.none, .none⟩

end Marks

/-- A node of a document. -/
inductive Node
  | scalar (marks : Marks) (style : ScalarStyle) (text : String)
  | list (marks : Marks) (items : List Node)
  | map (marks : Marks) (entries : List (Node × Node))
  /-- The node that has the anchor of a number. -/
  | alias (anchor : Nat)
  deriving Repr

namespace Node

/-- A node that is not written. -/
def empty (marks : Marks) : Node := .scalar marks .plain ""

mutual

/-- The number of parts of a node, where a list or map counts twice: where it
begins and where it ends. -/
def size : Node → Nat
  | .scalar _ _ _ | .alias _ => 1
  | .list _ items => sizeOfItems items + 2
  | .map _ entries => sizeOfEntries entries + 2

/-- The number of parts of nodes. -/
def sizeOfItems : List Node → Nat
  | [] => 0
  | n :: ns => n.size + sizeOfItems ns

/-- The number of parts of keys and values. -/
def sizeOfEntries : List (Node × Node) → Nat
  | [] => 0
  | (k, v) :: es => k.size + v.size + sizeOfEntries es

end

/-- A node after the ones below it, if it has an anchor. -/
def withAnchor (marks : Marks) (n : Node) (below : List (Nat × Node)) : List (Nat × Node) :=
  match marks.anchor with
  | some number => (number, n) :: below
  | .none => below

mutual

/-- The nodes with anchors, with their numbers, in the order of the text. -/
def anchored : Node → List (Nat × Node)
  | n@(.scalar marks _ _) => withAnchor marks n []
  | n@(.list marks items) => withAnchor marks n (anchoredItems items)
  | n@(.map marks entries) => withAnchor marks n (anchoredEntries entries)
  | .alias _ => []

/-- The nodes with anchors in nodes. -/
def anchoredItems : List Node → List (Nat × Node)
  | [] => []
  | n :: ns => n.anchored ++ anchoredItems ns

/-- The nodes with anchors in keys and values. -/
def anchoredEntries : List (Node × Node) → List (Nat × Node)
  | [] => []
  | (k, v) :: es => k.anchored ++ v.anchored ++ anchoredEntries es

end

end Node

end FeatureTree.Yaml
