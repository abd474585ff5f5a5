import FeatureTree.Constraint
import FeatureTree.Yaml.Node.View

/-!
# Constraints from YAML

A constraint without parameters is its name. One with parameters is a map with
its name as the only key: a kind, a list of kinds, or for `child-count` a map
with the kind and the bounds. In that map the least number can be missing and
is then zero, the greatest can be missing or mean nothing, other names are
passed over, and none of its own may occur twice.
-/

namespace FeatureTree.Constraint

open Yaml

/-- The node as a kind. -/
def kindOfNode (n : Yaml.Node) : Reader Kind := n.asNameOrEntry Kind.ofName? fun _ _ => failure

/-- The node as the parameters of `child-count`. -/
def childCountOfNode (n : Yaml.Node) : Reader Constraint := do
  let entries ← n.asMap
  let kind ← Reader.need (Value.unique? entries "kind")
  let min ← Reader.need (Value.unique? entries "min")
  let max ← Reader.need (Value.unique? entries "max")
  let kind ← kindOfNode (← Reader.need kind)
  let min ← match min with
    | none => pure 0
    | some n => n.asNat
  let max ← match max with
    | none => pure none
    | some n => n.asNat?
  return .childCount kind min max

/-- The constraint without parameters that has a name. -/
def ofName? : String → Option Constraint
  | "signature-only" => some .signatureOnly
  | "require-body" => some .requireBody
  | "require-name" => some .requireName
  | _ => none

/-- The constraint with a name whose parameters are in a node. -/
def ofEntry (name : String) (n : Yaml.Node) : Reader Constraint := do
  match name with
  | "root-kind-in" => return .rootKindIn (← (← n.asList).mapM kindOfNode)
  | "exactly-one-child" => return .exactlyOneChild (← kindOfNode n)
  | "forbid-kind" => return .forbidKind (← kindOfNode n)
  | "child-count" => childCountOfNode n
  | _ => failure

/-- The node as a constraint. -/
def ofNode (n : Yaml.Node) : Reader Constraint := n.asNameOrEntry ofName? ofEntry

end FeatureTree.Constraint
