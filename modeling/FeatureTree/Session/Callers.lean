import FeatureTree.Session.Basic

/-!
# What callers bring along

A registry takes any engine, and a set of constraints any validator. These are some of both for
runs in which a caller brings his own: engines that answer like a bundled one, as one production
whatever they are asked for, or with one error, and a validator of names. Nothing in the library
uses them.
-/

namespace FeatureTree

namespace Engine

/-- A caller's engine that reads like another one. -/
def supply (e : Engine) : Engine := { e with supplied := true }

/-- A caller's engine that reads one production whatever it is asked for. -/
def reading (production : Production) (e : Engine) : Engine :=
  ⟨e.language, true, fun text _ boundary => e.parse text production boundary⟩

/-- A caller's engine that answers every text with one error. -/
def failing (error : SyntaxError) (e : Engine) : Engine :=
  ⟨e.language, true, fun _ _ _ => .error error⟩

end Engine

/-- A validator that keeps a name from being used for the root. -/
structure ReservedName where
  name : String
  deriving DecidableEq, Repr

instance : Validator ReservedName where
  violation? reserved root :=
    if root.name = some reserved.name then some ⟨s!"{reserved.name} is reserved", root.span⟩
    else none

/-- Number of engines built so far that a caller has supplied. -/
def Session.suppliedCount {V : Type} (s : Session V) : Nat := s.engines.countP (·.supplied)

end FeatureTree
