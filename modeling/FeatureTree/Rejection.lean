import FeatureTree.Constraint
import FeatureTree.Engine
import FeatureTree.FileSystem
import FeatureTree.Traversal.Fault

/-!
# Rejections

Every way in which a snippet fails to become a tree, and an expression a plan.
The kinds of rejection are kept apart even where their causes look alike, so
that callers can tell a malformed snippet from a malformed expression.
-/

namespace FeatureTree

/-- A named text that a rejection points into. -/
structure Source where
  name : String
  content : String
  deriving DecidableEq, Repr

/-- What went wrong between an engine and the production it was asked for. -/
inductive GrammarFault
  /-- The engine could not read the text. -/
  | unread (error : SyntaxError)
  /-- The engine answered with a root that the production does not have. -/
  | wrongRoot (kind : Kind)
  deriving DecidableEq, Repr

namespace GrammarFault

/-- The sentence that reports the fault. -/
def message : GrammarFault → String
  | unread error => error.message
  | wrongRoot kind => s!"grammar produced a {kind} node"

/-- What is said at the place of the fault. -/
def label : GrammarFault → String
  | unread error => error.label
  | wrongRoot _ => "not a valid result"

end GrammarFault

/-- Why a snippet or an expression was rejected. -/
inductive Rejection
  /-- The text of the snippet could not be had. -/
  | sourceUnavailable (name : String) (reason : ReadError)
  /-- The text is not the production asked for. -/
  | grammar (source : Source) (target : Target) (fault : GrammarFault) (span : Span)
  /-- The traversal expression is malformed. -/
  | traversal (source : Source) (fault : Traversal.Fault) (span : Span)
  /-- The tree has a shape that is not allowed. -/
  | constraint (source : Source) (violation : Violation)
  /-- There is no engine for the production. -/
  | unsupported (target : Target)
  deriving DecidableEq, Repr

namespace Rejection

/-- The sentence that reports the rejection. -/
def message : Rejection → String
  | sourceUnavailable name reason => s!"source unavailable: {name}: {reason.message}"
  | grammar _ target fault _ =>
    s!"malformed {target.language} {target.production}: {fault.message}"
  | traversal _ fault _ => s!"malformed traversal expression: {fault.message}"
  | constraint _ violation => s!"structural constraint violated: {violation.reason}"
  | unsupported target => s!"{target.language} has no {target.production} production"

/-- The name of the kind of rejection. -/
def kind : Rejection → String
  | sourceUnavailable _ _ => "source_unavailable"
  | grammar _ _ _ _ => "grammar_error"
  | traversal _ _ _ => "traversal_query_syntax_error"
  | constraint _ _ => "structural_constraint_violation"
  | unsupported _ => "unsupported_production"

/-- The code of the diagnostic. -/
def code : Rejection → String
  | sourceUnavailable _ _ => "fstparse::source::unavailable"
  | grammar _ _ _ _ => "fstparse::grammar"
  | traversal _ _ _ => "fstparse::traversal::syntax"
  | constraint _ _ => "fstparse::constraint"
  | unsupported _ => "fstparse::unsupported"

/-- The advice that goes with the diagnostic. -/
def help : Rejection → Option String
  | sourceUnavailable _ _ => some "the snippet's backing resource could not be materialised"
  | grammar _ _ _ _ =>
    some "malformed feature fragment: the text does not match the expected production"
  | traversal _ _ _ => some "malformed composition directive: fix the traversal expression"
  | constraint _ _ => some "the fragment parsed but its shape cannot be composed"
  | unsupported _ => none

/-- The text that the rejection points into. -/
def source : Rejection → Option Source
  | grammar source _ _ _ | traversal source _ _ | constraint source _ => some source
  | sourceUnavailable _ _ | unsupported _ => none

/-- The place that the rejection points at. -/
def span : Rejection → Option Span
  | grammar _ _ _ span | traversal _ _ span => some span
  | constraint _ violation => some violation.span
  | sourceUnavailable _ _ | unsupported _ => none

/-- What is said at that place. -/
def label : Rejection → Option String
  | grammar _ _ fault _ => some fault.label
  | traversal _ _ _ => some "here"
  | constraint _ _ => some "rejected"
  | sourceUnavailable _ _ | unsupported _ => none

end Rejection

end FeatureTree
