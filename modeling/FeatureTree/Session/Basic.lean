import FeatureTree.Adapter

/-!
# Sessions

An adapter in use: its settings change between requests, and every engine that
is built is noted. Reading changes no settings.
-/

namespace FeatureTree

/-- An adapter, and the engines that were built so far, the latest first. -/
structure Session (V : Type) where
  adapter : Adapter V
  engines : List Engine

/-- What can be asked of a session. -/
inductive Request (V : Type)
  /-- Change the strictness. -/
  | setStrict (strict : Bool)
  /-- Replace the constraints of a target. -/
  | setConstraints (target : Target) (set : ConstraintSet V)
  /-- Read a snippet and check its shape. -/
  | parse (snippet : Snippet) (constraints : Option (ConstraintSet V))
  /-- Read a text without checking its shape. -/
  | parseText (text : String) (target : Target) (strict : Bool)

namespace Session

variable {V : Type}

/-- A session in which nothing has happened yet. -/
def start (adapter : Adapter V) : Session V := ⟨adapter, []⟩

/-- Notes the engine of an attempt. -/
def note (s : Session V) (attempt : Attempt) : Session V :=
  { s with engines := attempt.engine.toList ++ s.engines }

/-- Answers a request, with an outcome if it was to read something. -/
def step [Validator V] (files : FileSystem) (s : Session V) :
    Request V → Option Outcome × Session V
  | .setStrict strict => (none, { s with adapter := s.adapter.withStrict strict })
  | .setConstraints target set =>
    (none, { s with adapter := s.adapter.withConstraints target set })
  | .parse snippet constraints =>
    let attempt := s.adapter.parse files snippet constraints
    (some attempt.outcome, s.note attempt)
  | .parseText text target strict =>
    let attempt := s.adapter.parseText text target strict
    (some attempt.outcome, s.note attempt)

end Session

end FeatureTree
