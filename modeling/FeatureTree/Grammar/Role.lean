import FeatureTree.Grammar.Failure
import FeatureTree.Target

/-!
# From rules to nodes

A grammar for snippets says of each rule what its match contributes to the
tree. The rules of different languages have little in common; their roles do,
so one reading of roles serves all languages.
-/

namespace FeatureTree

/-- What the match of a rule contributes to the tree. -/
inductive Role
  /-- A node of its own. -/
  | node (kind : Kind)
  /-- The name of the node around it. -/
  | name
  /-- A name for the node around it, if nothing better names that. -/
  | fallbackName
  /-- The implementation text of the node around it. -/
  | body
  /-- Whatever the matches inside it contribute. -/
  | transparent
  /-- Nothing, nor do the matches inside it. -/
  | hidden
  deriving DecidableEq, Repr

/-- A grammar for the snippets of a language. -/
structure SnippetGrammar (R : Type) extends Grammar R where
  role : R → Role
  /-- The name of a rule in error messages. -/
  label : R → String
  /-- The rule that matches a production, where the language has it. -/
  entry : Production → Option R

end FeatureTree
