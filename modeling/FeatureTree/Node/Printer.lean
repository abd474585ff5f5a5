import FeatureTree.Node.Basic

/-!
# A tree as indented lines

One line per node: two blanks for each level, the kind, the name in quotes,
the span after `@`, and the span of the body after `body@`.
-/

namespace FeatureTree.Node

/-- The line of a node, without its indentation. -/
def line (kind : Kind) (name : Option String) (span : Span) (body : Option Span) : String :=
  let named := match name with
    | some text => s!" \"{text}\""
    | none => ""
  let bodied := match body with
    | some b => s!" body@{b}"
    | none => ""
  s!"{kind}{named} @{span}{bodied}\n"

/-- The blanks in front of a line at a depth. -/
def indentation (depth : Nat) : String := String.ofList (List.replicate (2 * depth) ' ')

mutual

/-- The lines of a tree whose root stands at a depth. -/
def prettyAt (depth : Nat) : Node → String
  | ⟨kind, name, children, span, body⟩ =>
    indentation depth ++ line kind name span body ++ prettyAllAt (depth + 1) children

/-- The lines of a list of trees whose roots stand at a depth. -/
def prettyAllAt (depth : Nat) : List Node → String
  | [] => ""
  | n :: ns => prettyAt depth n ++ prettyAllAt depth ns

end

/-- The tree as indented lines, one per node. -/
def pretty (n : Node) : String := n.prettyAt 0

end FeatureTree.Node
