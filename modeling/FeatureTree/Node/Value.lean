import FeatureTree.Node.Basic
import FeatureTree.Value

/-!
# A tree as a value

Kind, name, children, span and body, in this order. A missing name, a missing
body and an empty list of children are left out.
-/

namespace FeatureTree

/-- A span as a value. -/
def Span.toValue (s : Span) : Value := .map [("start", .nat s.start), ("end", .nat s.stop)]

namespace Node

/-- An entry, if there is something to enter. -/
def entry? {α : Type} (name : String) (toValue : α → Value) : Option α → List (String × Value)
  | some a => [(name, toValue a)]
  | none => []

/-- The entry for the children, given their values. -/
def childrenEntry : List Value → List (String × Value)
  | [] => []
  | vs => [("children", .list vs)]

mutual

/-- The tree as a value. -/
def toValue : Node → Value
  | ⟨kind, name, children, span, body⟩ =>
    .map ([("kind", .text kind.name)] ++ entry? "name" .text name ++
      childrenEntry (toValues children) ++ [("span", span.toValue)] ++
      entry? "body" Span.toValue body)

/-- A list of trees as values. -/
def toValues : List Node → List Value
  | [] => []
  | n :: ns => toValue n :: toValues ns

end

end Node

end FeatureTree
