import FeatureTree.Config
import FeatureTree.Registry
import FeatureTree.Stream

/-!
# The adapter

One way to read every snippet: find the engine for its target, read the text,
check that the root is one that the production can have, and check the shape.
The first of these steps to fail gives the outcome; nothing is tried again and
no other production is tried.
-/

namespace FeatureTree

/-- A tree, or why there is none. -/
abbrev Outcome := Except Rejection Node

/-- The outcome of reading a snippet, and the engine that was built for it, if
it came to that. -/
structure Attempt where
  outcome : Outcome
  engine : Option Engine

/-- What an adapter is built from: a strictness, and constraints for some targets.
A caller may have put validators into them. -/
structure Settings (V : Type) where
  strict : Bool
  targets : List (Target × ConstraintSet V)

/-- What a configuration sets. -/
def Config.settings {V : Type} (c : Config) : Settings V :=
  ⟨c.strict, c.targets.map fun t => (t.target, .ofList t.constraints)⟩

/-- Engines, a strictness, and the constraints that replace the defaults. -/
structure Adapter (V : Type) where
  registry : Registry
  strict : Bool
  /-- Replaced constraints, the latest first. -/
  constraints : List (Target × ConstraintSet V)

namespace Adapter

variable {V : Type}

/-- The adapter over some engines: strict, with the default constraints. -/
def ofRegistry (registry : Registry) : Adapter V := ⟨registry, true, []⟩

/-- The adapter over the bundled engines. -/
def default : Adapter V := ofRegistry .bundled

/-- The adapter with another strictness. -/
def withStrict (a : Adapter V) (strict : Bool) : Adapter V := { a with strict := strict }

/-- The adapter with other constraints for a target. -/
def withConstraints (a : Adapter V) (target : Target) (set : ConstraintSet V) : Adapter V :=
  { a with constraints := (target, set) :: a.constraints }

/-- The adapter over the bundled engines with some settings. Of several entries
for a target the last one counts. -/
def ofSettings (settings : Settings V) : Adapter V :=
  settings.targets.foldl (fun a (target, set) => a.withConstraints target set)
    (default.withStrict settings.strict)

/-- The adapter over the bundled engines that a configuration describes. -/
def ofConfig (c : Config) : Adapter V := ofSettings c.settings

/-- The constraints of a target. -/
def constraintsFor (a : Adapter V) (target : Target) : ConstraintSet V :=
  match a.constraints.find? (·.1 == target) with
  | some (_, set) => set
  | none => .forProduction target.production

/-- Reads the text at the front of a stream with an engine. Spans are those of
the whole stream. -/
def readWith (engine : Engine) (stream : Stream) (target : Target) (strict : Bool) : Outcome :=
  let offset := stream.offset
  match engine.parse stream.remaining target.production (.ofStrict strict) with
  | .error error =>
    .error (.grammar stream.source target (.unread error) (error.span.shifted offset))
  | .ok node =>
    if target.production.accepts node.kind then .ok (node.shifted offset)
    else
      .error (.grammar stream.source target (.wrongRoot node.kind) (node.span.shifted offset))

/-- Reads what is left of a stream as a target. The stream is used up, unless
there is no engine for the target. -/
def parseStream (a : Adapter V) (stream : Stream) (target : Target) (strict : Bool) :
    Attempt × Stream :=
  match a.registry.engine? target with
  | none => (⟨.error (.unsupported target), none⟩, stream)
  | some engine =>
    (⟨readWith engine stream target strict, some engine⟩, stream.readToEnd.2)

/-- Reads a text as a target, without checking its shape. -/
def parseText (a : Adapter V) (text : String) (target : Target) (strict : Bool) : Attempt :=
  (a.parseStream (.ofText Content.defaultName text) target strict).1

/-- Checks the shape of a tree that was read. -/
def checkShape [Validator V] (set : ConstraintSet V) (source : Source) (node : Node) : Outcome :=
  match set.violation? node with
  | some violation => .error (.constraint source violation)
  | none => .ok node

/-- Reads a snippet and checks its shape, against the given constraints or else
those of its target. -/
def parse [Validator V] (a : Adapter V) (files : FileSystem) (snippet : Snippet)
    (constraints : Option (ConstraintSet V)) : Attempt :=
  if a.registry.contains snippet.target then
    match Stream.ofContent files snippet.content with
    | .error rejection => ⟨.error rejection, none⟩
    | .ok stream =>
      let attempt := (a.parseStream stream snippet.target a.strict).1
      match attempt.outcome with
      | .error _ => attempt
      | .ok node =>
        let set := constraints.getD (a.constraintsFor snippet.target)
        { attempt with outcome := checkShape set stream.source node }
  else ⟨.error (.unsupported snippet.target), none⟩

end Adapter

/-- Reads a text as a target with the bundled engines, without checking its
shape. -/
def parseSnippet (text : String) (target : Target) (strict : Bool) : Outcome :=
  ((Adapter.default : Adapter Empty).parseText text target strict).outcome

end FeatureTree
