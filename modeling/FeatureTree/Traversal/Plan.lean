import FeatureTree.Node.Kind

/-!
# Traversal plans

A plan says where nodes are found: starting at the node it is applied to or at
the root of the tree, step by step along an axis, keeping at each step the
nodes that pass a test and all of its predicates. A plan only says this; it
walks no tree.

The canonical text of a plan writes every axis out, and parentheses only where
an `or` is an operand of an `and`.
-/

namespace FeatureTree.Traversal

/-- Where a plan starts. -/
inductive Anchor
  /-- At the node it is applied to. -/
  | context
  /-- At the root of the tree. -/
  | root
  deriving DecidableEq, Repr

/-- The direction of a step. -/
inductive Axis
  | child | descendant | descendantOrSelf | self | parent | ancestor
  deriving DecidableEq, Repr

namespace Axis

/-- All axes. -/
def all : List Axis := [.child, .descendant, .descendantOrSelf, .self, .parent, .ancestor]

/-- The written name of an axis. -/
def name : Axis → String
  | .child => "child"
  | .descendant => "descendant"
  | .descendantOrSelf => "descendant-or-self"
  | .self => "self"
  | .parent => "parent"
  | .ancestor => "ancestor"

/-- The axis with a written name. -/
def ofName? (text : String) : Option Axis := all.find? (·.name == text)

instance : ToString Axis := ⟨name⟩

end Axis

/-- Which kinds of nodes a step keeps. -/
inductive NodeTest
  | any
  | kind (kind : Kind)
  deriving DecidableEq, Repr

namespace NodeTest

/-- The test keeps nodes of a kind. -/
def accepts : NodeTest → Kind → Bool
  | .any, _ => true
  | .kind expected, k => expected == k

instance : ToString NodeTest where
  toString
    | .any => "*"
    | .kind k => k.name

end NodeTest

/-- A property of nodes that predicates can ask for. -/
inductive Attribute
  | name | kind
  deriving DecidableEq, Repr

namespace Attribute

/-- The written name of an attribute, without its sign. -/
def word : Attribute → String
  | .name => "name"
  | .kind => "kind"

/-- The attribute with a written name. -/
def ofWord? : String → Option Attribute
  | "name" => some .name
  | "kind" => some .kind
  | _ => none

end Attribute

/-- How an attribute is compared with a text. -/
inductive Comparison
  | equal | notEqual
  deriving DecidableEq, Repr

/-- The symbol of a comparison. -/
def Comparison.symbol : Comparison → String
  | .equal => "="
  | .notEqual => "!="

/-- A condition on the nodes that a step has found. -/
inductive Predicate
  /-- The node is the one at this position, counted from one. -/
  | position (n : Nat)
  /-- The node has the attribute. -/
  | has (asked : Attribute)
  /-- The attribute compares with a text. -/
  | compare (asked : Attribute) (comparison : Comparison) (value : String)
  | and (left right : Predicate)
  | or (left right : Predicate)
  deriving DecidableEq, Repr

namespace Predicate

/-- The quote that a text is written in: double if it holds a single one. -/
def quoteOf (value : String) : String := if value.toList.contains '\'' then "\"" else "'"

/-- The text in parentheses, if it must be. -/
def parenthesized (needed : Bool) (text : String) : String :=
  if needed then "(" ++ text ++ ")" else text

/-- The predicate is an `or`. -/
def isOr : Predicate → Bool
  | .or _ _ => true
  | _ => false

/-- The canonical text of a predicate. -/
protected def toString : Predicate → String
  | .position n => toString n
  | .has asked => "@" ++ asked.word
  | .compare asked comparison value =>
    "@" ++ asked.word ++ comparison.symbol ++ quoteOf value ++ value ++ quoteOf value
  | .and left right =>
    parenthesized left.isOr left.toString ++ " and " ++ parenthesized right.isOr right.toString
  | .or left right => left.toString ++ " or " ++ right.toString

instance : ToString Predicate := ⟨Predicate.toString⟩

end Predicate

/-- One step of a plan. -/
structure Step where
  axis : Axis
  test : NodeTest
  predicates : List Predicate
  deriving DecidableEq, Repr

namespace Step

/-- A step without predicates. -/
def plain (axis : Axis) (test : NodeTest) : Step := ⟨axis, test, []⟩

/-- The canonical text of a step. -/
protected def toString (s : Step) : String :=
  s.axis.name ++ "::" ++ toString s.test ++
    String.join (s.predicates.map fun p => "[" ++ p.toString ++ "]")

instance : ToString Step := ⟨Step.toString⟩

end Step

/-- A traversal plan. -/
structure Plan where
  anchor : Anchor
  steps : List Step
  deriving DecidableEq, Repr

namespace Plan

/-- The canonical text of a plan. -/
protected def toString (p : Plan) : String :=
  (match p.anchor with
    | .root => "/"
    | .context => "") ++ "/".intercalate (p.steps.map Step.toString)

instance : ToString Plan := ⟨Plan.toString⟩

end Plan

end FeatureTree.Traversal
