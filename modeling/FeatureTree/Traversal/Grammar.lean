import FeatureTree.Grammar.Failure

/-!
# The grammar of traversal expressions

A path of steps with separators between them. A step is two dots, a dot, or an
axis, a test and predicates. Blanks may stand between any two tokens.
-/

namespace FeatureTree.Traversal

/-- The rules, in order of declaration. -/
inductive Rule
  | endOfExpression
  | expression | descendantSep | childSep | step | parentStep | selfStep | axisStep
  | axis | nodeTest | wildcard | kindName | predicate | orExpr | andExpr | atom
  | comparison | attributeTest | attributeName | comparator | notEqual | equal
  | literal | singleInner | doubleInner | position | kwAnd | kwOr
  deriving DecidableEq, Repr

namespace Rule

/-- All rules, in order of declaration. -/
def all : List Rule :=
  [endOfExpression,
    expression, descendantSep, childSep, step, parentStep, selfStep, axisStep,
    axis, nodeTest, wildcard, kindName, predicate, orExpr, andExpr, atom,
    comparison, attributeTest, attributeName, comparator, notEqual, equal,
    literal, singleInner, doubleInner, position, kwAnd, kwOr]

/-- What an error message calls the thing that a rule matches. Rules that match
the same thing have one name. -/
def label : Rule → String
  | endOfExpression => "end of expression"
  | step | axisStep => "step"
  | axis => "axis"
  | nodeTest | kindName | wildcard => "node test"
  | predicate => "'['"
  | orExpr | andExpr | atom => "predicate"
  | kwAnd => "'and'"
  | kwOr => "'or'"
  | comparator | equal | notEqual => "'=' or '!='"
  | literal => "quoted literal"
  | attributeName => "attribute name"
  | position => "position"
  | descendantSep | childSep => "'/'"
  | _ => "token"

/-- Words and positions are tokens. The parts of a literal are recorded, and no
blank of it is dropped. -/
def layout : Rule → Layout
  | axis | kindName | attributeName | singleInner | doubleInner | position | kwAnd | kwOr => .token
  | literal => .joined
  | _ => .spaced

open FeatureTree.Expr

/-- A character of a name after the first. -/
def nameChar : Expr Rule := .either (.char Char.isAlphanum) (.either "-" "_")

/-- A name: a letter, then letters, digits, dashes and underscores. -/
def name : Expr Rule := seq [.char Char.isAlpha, star nameChar]

/-- A separator of steps. -/
def separator : Expr Rule := choice [descendantSep, childSep]

/-- The names of the axes. Of names that start alike the longer ones come first. -/
def axisWords : List String :=
  ["descendant-or-self", "descendant", "child", "self", "parent", "ancestor"]

/-- The expression of a rule. -/
def body : Rule → Expr Rule
  | endOfExpression => notAhead any
  | expression =>
    seq [start, opt separator, step, star (seq [separator, step]), endOfExpression]
  | descendantSep => "//"
  | childSep => "/"
  | step => choice [parentStep, selfStep, axisStep]
  | parentStep => ".."
  | selfStep => "."
  | axisStep => seq [opt (seq [axis, "::"]), nodeTest, star predicate]
  | axis => seq [oneOf axisWords, notAhead nameChar]
  | nodeTest => choice [wildcard, kindName]
  | wildcard => "*"
  | kindName => name
  | predicate => seq ["[", orExpr, "]"]
  | orExpr => seq [andExpr, star (seq [kwOr, andExpr])]
  | andExpr => seq [atom, star (seq [kwAnd, atom])]
  | atom => choice [position, comparison, attributeTest, seq ["(", orExpr, ")"]]
  | comparison => seq ["@", attributeName, comparator, literal]
  | attributeTest => seq ["@", attributeName]
  | attributeName => name
  | comparator => choice [notEqual, equal]
  | notEqual => "!="
  | equal => "="
  | literal => choice [seq ["'", singleInner, "'"], seq ["\"", doubleInner, "\""]]
  | singleInner => star (butNot "'")
  | doubleInner => star (butNot "\"")
  | position => plus (.char Char.isDigit)
  | kwAnd => seq ["and", notAhead nameChar]
  | kwOr => seq ["or", notAhead nameChar]

end Rule

/-- A blank, a tab or an end of line. -/
def blank? : List Char → Option (List Char)
  | [] => none
  | c :: s => if c == ' ' || c == '\t' || c == '\r' || c == '\n' then some s else none

/-- Blanks; there are no comments. -/
def trivia : Trivia := ⟨blank?, fun _ => none⟩

/-- The grammar of traversal expressions. -/
def grammar : Grammar Rule := ⟨Rule.all, Rule.layout, Rule.body, trivia⟩

end FeatureTree.Traversal
