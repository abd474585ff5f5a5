import FeatureTree.Constraint

/-!
# Configurations

A configuration sets the strictness and replaces the constraints of some
targets. It may only name targets that exist.
-/

namespace FeatureTree

/-- The constraints of one target. -/
structure TargetConfig where
  target : Target
  constraints : List Constraint
  deriving DecidableEq, Repr

/-- A configuration of the adapter. -/
structure Config where
  strict : Bool
  targets : List TargetConfig
  deriving DecidableEq, Repr

namespace Config

/-- The configuration where nothing is configured. -/
def default : Config := ⟨true, []⟩

/-- The first target that its language does not have. -/
def unsupported? (c : Config) : Option Target :=
  (c.targets.map (·.target)).find? (!·.isSupported)

end Config

end FeatureTree
