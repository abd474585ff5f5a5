import FeatureTree.Config
import FeatureTree.Constraint.Value

/-!
# Configurations as values

A configuration is a map with its strictness under `strict` and a list of its
targets under `targets`; a target is a map with its language, its production
and its constraints.
-/

namespace FeatureTree

/-- A target's constraints as a value. -/
def TargetConfig.toValue (t : TargetConfig) : Value :=
  .map [("language", .text t.target.language.name),
    ("production", .text t.target.production.name),
    ("constraints", Constraint.listToValue t.constraints)]

/-- A configuration as a value. -/
def Config.toValue (c : Config) : Value :=
  .map [("strict", .bool c.strict), ("targets", .list (c.targets.map TargetConfig.toValue))]

end FeatureTree
