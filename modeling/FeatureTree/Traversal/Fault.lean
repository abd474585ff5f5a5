import FeatureTree.Grammar.Failure

/-!
# Faults of traversal expressions
-/

namespace FeatureTree.Traversal

/-- What is wrong with a traversal expression. -/
inductive Fault
  /-- The text does not match the grammar. -/
  | mismatch (report : Mismatch)
  /-- A word that should name a kind of node does not. -/
  | unknownKind (word : String)
  /-- A word after `@` is no attribute. -/
  | unknownAttribute (word : String)
  /-- A position is zero. -/
  | positionZero
  /-- A position does not fit into 64 bits. -/
  | positionTooLarge
  /-- There is no expression. -/
  | emptyExpression
  /-- There is nothing in a step. -/
  | emptyStep
  /-- A word in front of two colons is no axis. -/
  | unknownAxis (word : String)
  /-- There is nothing in a predicate. -/
  | emptyPredicate
  /-- A comparison lacks its attribute or its literal. -/
  | incompleteComparison
  /-- The test of an attribute does not name one. -/
  | missingAttribute
  /-- A predicate is of no form that is known. -/
  | unsupportedPredicate
  deriving DecidableEq, Repr

/-- The sentence that reports the fault. -/
def Fault.message : Fault → String
  | mismatch report => report.message
  | unknownKind word => s!"unknown node kind '{word}'"
  | unknownAttribute word => s!"unknown attribute '@{word}', expected @name or @kind"
  | positionZero => "positions start at 1"
  | positionTooLarge => "position is too large"
  | emptyExpression => "empty expression"
  | emptyStep => "empty step"
  | unknownAxis word => s!"unknown axis '{word}'"
  | emptyPredicate => "empty predicate"
  | incompleteComparison => "incomplete comparison"
  | missingAttribute => "missing attribute"
  | unsupportedPredicate => "unsupported predicate"

end FeatureTree.Traversal
