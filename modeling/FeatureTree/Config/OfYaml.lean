import FeatureTree.Config
import FeatureTree.Constraint.OfYaml
import FeatureTree.Yaml.Node.OfTokens

/-!
# Configurations from YAML

A configuration is a map with its strictness under `strict` and a list of its
targets under `targets`; a target is a map with its language, its production
and its constraints.

Each part but language and production can be missing, and what is missing is as
in the default, as is all of a configuration in a text with nothing in it. The
map of a configuration may hold nothing else; in the map of a target other names
are passed over.
-/

namespace FeatureTree

open Yaml

/-- The node as the constraints of a target. -/
def TargetConfig.ofNode (n : Yaml.Node) : Reader TargetConfig := do
  let entries ← n.asMap
  let language ← Reader.need (Value.unique? entries "language")
  let production ← Reader.need (Value.unique? entries "production")
  let constraints ← Reader.need (Value.unique? entries "constraints")
  let language ← (← Reader.need language).asName Language.ofName?
  let production ← (← Reader.need production).asName Production.ofName?
  let constraints ← match constraints with
    | none => pure []
    | some n => (← n.asList).mapM Constraint.ofNode
  return ⟨⟨language, production⟩, constraints⟩

namespace Config

/-- The node as a configuration. -/
def ofNode (n : Yaml.Node) : Reader Config := do
  let entries ← n.asMap
  let strict ← Reader.need (Value.unique? entries "strict")
  let targets ← Reader.need (Value.unique? entries "targets")
  if !entries.all fun e => ["strict", "targets"].contains e.1 then failure
  let strict ← match strict with
    | none => pure true
    | some n => n.asBool
  let targets ← match targets with
    | none => pure []
    | some n => (← n.asList).mapM TargetConfig.ofNode
  return ⟨strict, targets⟩

/-- The configuration that a YAML text stands for. -/
def ofYaml? (text : String) : Option Config := do
  match ← Yaml.Node.ofText? text with
  | none => return default
  | some root => Reader.ofRoot ofNode root

end Config

end FeatureTree
