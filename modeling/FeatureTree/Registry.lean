import FeatureTree.Engine

/-!
# The registry of engines

A registry holds at most one engine for each target. Its entries are kept in
the order of targets, so that listing them needs no sorting and does not depend
on the order of registration. A table without an order whose keys are sorted when
they are listed comes to the same (`Table.registerAll_eq`).
-/

namespace FeatureTree

/-- An engine for each of some targets. -/
structure Registry where
  entries : List (Target × Engine)

namespace Registry

/-- The registry without engines. -/
def empty : Registry := ⟨[]⟩

/-- Puts an entry in its place, instead of one for the same target. -/
def insertEntry (target : Target) (engine : Engine) :
    List (Target × Engine) → List (Target × Engine)
  | [] => [(target, engine)]
  | (t, e) :: rest =>
    if t = target then (target, engine) :: rest
    else if target.before t then (target, engine) :: (t, e) :: rest
    else (t, e) :: insertEntry target engine rest

/-- Registers an engine for a target, instead of the one before. -/
def register (r : Registry) (target : Target) (engine : Engine) : Registry :=
  ⟨insertEntry target engine r.entries⟩

/-- The engine for a target. -/
def engine? (r : Registry) (target : Target) : Option Engine :=
  (r.entries.find? (·.1 == target)).map (·.2)

/-- An engine is found for its own target, and for no other one. -/
theorem engine?_register (r : Registry) (target other : Target) (engine : Engine) :
    (r.register target engine).engine? other =
      if target = other then some engine else r.engine? other := by
  obtain ⟨entries⟩ := r
  simp only [register, engine?]
  induction entries with
  | nil => by_cases h : target = other <;> simp [insertEntry, h]
  | cons entry rest ih =>
    obtain ⟨t, e⟩ := entry
    unfold insertEntry
    split
    · rename_i h
      by_cases ho : target = other <;> simp [h, ho]
    · rename_i h
      split
      · by_cases ho : target = other <;> simp [ho]
      · by_cases ho : t = other
        · have hne : target ≠ other := fun he => h (ho.trans he.symm)
          simp [ho, hne]
        · simpa [ho] using ih

/-- There is an engine for the target. -/
def contains (r : Registry) (target : Target) : Bool := (r.engine? target).isSome

/-- The targets that have an engine, in order. -/
def targets (r : Registry) : List Target := r.entries.map (·.1)

/-- All targets of the bundled grammars. -/
def bundledTargets : List Target :=
  Language.all.flatMap fun language => language.productions.map fun p => ⟨language, p⟩

/-- The registry of the bundled engines. -/
def bundled : Registry :=
  bundledTargets.foldl (fun r t => r.register t (.bundled t.language)) empty

/-- The tag of a language in listings for developers. -/
def languageTag : Language → String
  | .java => "Java"
  | .csharp => "CSharp"
  | .c => "C"

/-- The tag of a production in listings for developers. -/
def productionTag : Production → String
  | .classMember => "ClassMember"
  | .method => "Method"
  | .constructor => "Constructor"
  | .field => "Field"
  | .property => "Property"
  | .type => "Type"
  | .externalDeclaration => "ExternalDeclaration"
  | .function => "Function"
  | .declaration => "Declaration"

/-- A listing of the targets for developers. -/
def listing (r : Registry) : String :=
  let pair (t : Target) := s!"({languageTag t.language}, {productionTag t.production})"
  "EngineRegistry \x7b targets: [" ++ ", ".intercalate (r.targets.map pair) ++ "] \x7d"

end Registry

end FeatureTree
