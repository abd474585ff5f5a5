import FeatureTree.Rejection
import FeatureTree.Traversal.Grammar
import FeatureTree.Traversal.Plan
import FeatureTree.Value

/-!
# Plans from expressions

The match of an expression is read from left to right, and the first word that
means nothing, or position that is out of range, rejects the expression. `and`
binds tighter than `or`, and both group to the left.

A step after `//` looks among all descendants. If it names its axis itself,
also as `.` or `..`, a step to every descendant and the node itself is put in
front of it instead.
-/

namespace FeatureTree.Traversal

/-- A result, or a fault and its place. -/
abbrev Reading (α : Type) := Except (Fault × Span) α

/-- The span of a match in an expression of `total` bytes. -/
def spanOf (total : Nat) (before after : List Char) : Span :=
  ⟨total - Text.byteLength before, total - Text.byteLength after⟩

/-- The text of a match. -/
def wordOf (before after : List Char) : String := String.ofList (Forest.taken before after)

/-- The number that a row of digits writes. -/
def numberOf (digits : List Char) : Nat :=
  digits.foldl (fun n c => 10 * n + (c.toNat - 48)) 0

/-- The kind of node that a word names. -/
def readKind (total : Nat) (before after : List Char) : Reading Kind :=
  match Kind.ofName? (wordOf before after) with
  | some kind => .ok kind
  | none => .error (.unknownKind (wordOf before after), spanOf total before after)

/-- The attribute that a word names. -/
def readAttribute (total : Nat) (before after : List Char) : Reading Attribute :=
  match Attribute.ofWord? (wordOf before after) with
  | some asked => .ok asked
  | none => .error (.unknownAttribute (wordOf before after), spanOf total before after)

/-- The position that a row of digits writes. -/
def readPosition (total : Nat) (before after : List Char) : Reading Predicate :=
  let n := numberOf (Forest.taken before after)
  if Value.maxNat < n then .error (.positionTooLarge, spanOf total before after)
  else if n = 0 then .error (.positionZero, spanOf total before after)
  else .ok (.position n)

/-- The text inside a literal. -/
def insideOf : Forest Rule → String
  | .nil => ""
  | .cons _ before after _ _ => wordOf before after

/-- What has been read of a comparison. -/
structure ComparisonParts where
  asked : Option Attribute
  comparison : Comparison
  /-- The text of the literal, and where the literal is. -/
  value : Option (String × Span)

/-- The parts of a comparison, after those that have been read. -/
def readParts (total : Nat) (parts : ComparisonParts) : Forest Rule → Reading ComparisonParts
  | .nil => .ok parts
  | .cons .attributeName before after _ next => do
    let asked ← readAttribute total before after
    readParts total { parts with asked := some asked } next
  | .cons .comparator before after _ next =>
    let comparison := if wordOf before after == "!=" then .notEqual else parts.comparison
    readParts total { parts with comparison := comparison } next
  | .cons .literal before after inner next =>
    readParts total { parts with value := some (insideOf inner, spanOf total before after) } next
  | .cons _ _ _ _ next => readParts total parts next

/-- The comparison of an attribute with a literal. A literal compared with
`@kind` must be the name of a kind. -/
def readComparison (total : Nat) (atom : Span) (inner : Forest Rule) : Reading Predicate := do
  let parts ← readParts total ⟨none, .equal, none⟩ inner
  match parts.asked, parts.value with
  | some asked, some (value, place) =>
    if asked == .kind && (Kind.ofName? value).isNone then .error (.unknownKind value, place)
    else .ok (.compare asked parts.comparison value)
  | _, _ => .error (.incompleteComparison, atom)

/-- The attribute whose presence is tested. -/
def readHas (total : Nat) (atom : Span) : Forest Rule → Reading Predicate
  | .nil => .error (.missingAttribute, atom)
  | .cons .attributeName before after _ _ => return .has (← readAttribute total before after)
  | .cons _ _ _ _ next => readHas total atom next

/-- A predicate joined to those on its left, if there are any. -/
def joinLeft (join : Predicate → Predicate → Predicate) :
    Option Predicate → Predicate → Predicate
  | none, p => p
  | some left, p => join left p

/-- The predicate read so far, at the end of its parts. -/
def finished (total : Nat) : Option Predicate → Reading Predicate
  | some p => .ok p
  | none => .error (.emptyPredicate, ⟨0, total⟩)

mutual

/-- The operands of `or`, after those that have been read. -/
def readOr (total : Nat) (left : Option Predicate) : Forest Rule → Reading Predicate
  | .nil => finished total left
  | .cons .andExpr _ _ inner next => do
    let p ← readAnd total none inner
    readOr total (some (joinLeft .or left p)) next
  | .cons _ _ _ _ next => readOr total left next

/-- The operands of `and`, after those that have been read. -/
def readAnd (total : Nat) (left : Option Predicate) : Forest Rule → Reading Predicate
  | .nil => finished total left
  | .cons .atom before after inner next => do
    let p ← readAtom total (spanOf total before after) inner
    readAnd total (some (joinLeft .and left p)) next
  | .cons _ _ _ _ next => readAnd total left next

/-- One operand, which takes up a span. -/
def readAtom (total : Nat) (atom : Span) : Forest Rule → Reading Predicate
  | .nil => .error (.emptyPredicate, atom)
  | .cons .position before after _ _ => readPosition total before after
  | .cons .comparison _ _ inner _ => readComparison total atom inner
  | .cons .attributeTest _ _ inner _ => readHas total atom inner
  | .cons .orExpr _ _ inner _ => readOr total none inner
  | .cons _ _ _ _ _ => .error (.unsupportedPredicate, atom)

end

/-- The test of a step. -/
def readTest (total : Nat) : Forest Rule → Reading NodeTest
  | .cons .kindName before after _ _ => return .kind (← readKind total before after)
  | _ => .ok .any

/-- The predicates of a step. -/
def readPredicates (total : Nat) : Forest Rule → Reading (List Predicate)
  | .cons .predicate _ _ (.cons .orExpr _ _ inner _) next => do
    let p ← readOr total none inner
    let ps ← readPredicates total next
    return p :: ps
  | _ => .ok []

/-- The test and the predicates of a step along an axis. -/
def readFound (total : Nat) (axis : Axis) : Forest Rule → Reading Step
  | .cons .nodeTest _ _ inner next => do
    let test ← readTest total inner
    let predicates ← readPredicates total next
    return ⟨axis, test, predicates⟩
  | parts => return ⟨axis, .any, ← readPredicates total parts⟩

/-- A step, and whether it says its axis itself. -/
def readStep (total : Nat) : Forest Rule → Reading (Step × Bool)
  | .nil => .error (.emptyStep, ⟨0, 0⟩)
  | .cons .parentStep _ _ _ _ => .ok (.plain .parent .any, true)
  | .cons .selfStep _ _ _ _ => .ok (.plain .self .any, true)
  | .cons _ _ _ (.cons .axis before after _ next) _ =>
    match Axis.ofName? (wordOf before after) with
    | some axis => return (← readFound total axis next, true)
    | none => .error (.unknownAxis (wordOf before after), spanOf total before after)
  | .cons _ _ _ inner _ => return (← readFound total .child inner, false)

/-- The steps that a written step stands for, where `deep` says that it comes
after `//`. -/
def expandStep (deep : Bool) (step : Step) (explicit : Bool) : List Step :=
  match deep, explicit with
  | false, _ => [step]
  | true, true => [.plain .descendantOrSelf .any, step]
  | true, false => [{ step with axis := .descendant }]

/-- The steps of a path, where `deep` says that the last separator was `//`. -/
def readSteps (total : Nat) (deep : Bool) : Forest Rule → Reading (List Step)
  | .nil => .ok []
  | .cons .descendantSep _ _ _ next => readSteps total true next
  | .cons .childSep _ _ _ next => readSteps total false next
  | .cons .step _ _ inner next => do
    let (step, explicit) ← readStep total inner
    let steps ← readSteps total false next
    return expandStep deep step explicit ++ steps
  | .cons _ _ _ _ next => readSteps total deep next

/-- A path that begins with a separator starts at the root. -/
def anchorOf : Forest Rule → Anchor
  | .cons .descendantSep _ _ _ _ | .cons .childSep _ _ _ _ => .root
  | _ => .context

/-- The plan of a match. -/
def readPlan (total : Nat) : Forest Rule → Reading Plan
  | .nil => .error (.emptyExpression, ⟨0, total⟩)
  | .cons _ _ _ inner _ => return ⟨anchorOf inner, ← readSteps total false inner⟩

/-- Reads an expression, or says what is wrong with it and where. -/
def read (expression : List Char) : Reading Plan :=
  match grammar.parse .expression expression with
  | some (_, forest) => readPlan (Text.byteLength expression) forest
  | none =>
    let report := grammar.mismatch Rule.label .expression expression
    .error (.mismatch report, ⟨report.offset, report.offset⟩)

/-- The name that expressions go by in rejections. -/
def sourceName : String := "<traversal>"

/-- The plan that an expression stands for. -/
def Plan.ofString (expression : String) : Except Rejection Plan :=
  match read expression.toList with
  | .ok plan => .ok plan
  | .error (fault, span) => .error (.traversal ⟨sourceName, expression⟩ fault span)

end FeatureTree.Traversal
