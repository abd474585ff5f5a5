import FeatureTree.Traversal.Plan
import FeatureTree.Value

/-!
# Plans as values

A plan is a map of its anchor and its steps, a step a map of its axis, its test
and its predicates, which are left out if there are none. A choice without
parameters is its name; a choice with parameters is a map with the name as its
only entry.

Reading is more liberal: entries of other names are passed over, a name may
also stand as the only entry of a map, with null, and what is written as a map
of named parts may be a list of these parts in order. A text is read while its
lists and maps are entered, so a reader of texts can have a limit on the depth,
and it sees when a name stands twice (`Origin`).
-/

namespace FeatureTree.Traversal

/-- The written name of an anchor. -/
def Anchor.name : Anchor → String
  | .context => "context"
  | .root => "root"

/-- The written name of a comparison. -/
def Comparison.name : Comparison → String
  | .equal => "equal"
  | .notEqual => "not-equal"

/-- A test as a value. -/
def NodeTest.toValue : NodeTest → Value
  | .any => .text "any"
  | .kind k => .map [("kind", .text k.name)]

/-- A predicate as a value. -/
def Predicate.toValue : Predicate → Value
  | .position n => .map [("position", .nat n)]
  | .has asked => .map [("has", .text asked.word)]
  | .compare asked comparison value =>
    .map [("compare", .map [("attribute", .text asked.word),
      ("comparison", .text comparison.name), ("value", .text value)])]
  | .and left right => .map [("and", .list [left.toValue, right.toValue])]
  | .or left right => .map [("or", .list [left.toValue, right.toValue])]

/-- A step as a value. -/
def Step.toValue (s : Step) : Value :=
  .map ([("axis", .text s.axis.name), ("test", s.test.toValue)] ++
    match s.predicates with
    | [] => []
    | p :: ps => [("predicates", .list ((p :: ps).map Predicate.toValue))])

/-- A plan as a value. -/
def Plan.toValue (p : Plan) : Value :=
  .map [("anchor", .text p.anchor.name), ("steps", .list (p.steps.map Step.toValue))]

/-- Where values are read from. -/
inductive Origin
  /-- From a tree of values, which may be of any depth. Of several entries of a name the last
  one counts. -/
  | tree
  /-- From a text, with so many levels of lists and maps still to be entered. An entry that is
  asked for may stand only once. -/
  | text (levels : Nat)
  deriving DecidableEq, Repr

namespace Origin

/-- What is left of the levels inside a list or map, if it may be entered. -/
def enter? : Origin → Option Origin
  | tree => some tree
  | text 0 => none
  | text (levels + 1) => some (text levels)

/-- The levels that a reader of JSON texts enters unless it is told otherwise. -/
def defaultLevels : Nat := 127

/-- The part of a map under a name, if there is one; nothing if it cannot be told. -/
def part? (entries : List (String × Value)) (name : String) : Origin → Option (Option Value)
  | tree => some ((entries.reverse.find? (·.1 == name)).map (·.2))
  | text _ => Value.unique? entries name

/-- The part of a map that has to be there. -/
def required? (o : Origin) (entries : List (String × Value)) (name : String) : Option Value :=
  (o.part? entries name).bind id

/-- The name of a choice without parameters. -/
def choice? (o : Origin) : Value → Option String
  | .text name => some name
  | .map [(name, .null)] => o.enter?.map fun _ => name
  | _ => none

end Origin

/-- The anchor of a value. -/
def Anchor.read? (o : Origin) (v : Value) : Option Anchor :=
  match o.choice? v with
  | some "context" => some .context
  | some "root" => some .root
  | _ => none

/-- The axis of a value. -/
def Axis.read? (o : Origin) (v : Value) : Option Axis := (o.choice? v).bind Axis.ofName?

/-- The attribute of a value. -/
def Attribute.read? (o : Origin) (v : Value) : Option Attribute :=
  (o.choice? v).bind Attribute.ofWord?

/-- The comparison of a value. -/
def Comparison.read? (o : Origin) (v : Value) : Option Comparison :=
  match o.choice? v with
  | some "equal" => some .equal
  | some "not-equal" => some .notEqual
  | _ => none

/-- The test of a value. -/
def NodeTest.read? (o : Origin) : Value → Option NodeTest
  | .map [("kind", v)] => do
    let o ← o.enter?
    ((o.choice? v).bind Kind.ofName?).map .kind
  | v => if o.choice? v = some "any" then some .any else none

/-- The comparison of an attribute whose three parts are given. -/
def Predicate.readCompare? (o : Origin) (asked comparison value : Value) : Option Predicate := do
  let asked ← Attribute.read? o asked
  let comparison ← Comparison.read? o comparison
  let value ← value.asText?
  return .compare asked comparison value

/-- The predicate of a value. The map of a choice is a level, and so is the list or map of its
parameters. -/
def Predicate.read? (o : Origin) : Value → Option Predicate
  | .map [("position", v)] => do
    let _ ← o.enter?
    v.asNat?.map .position
  | .map [("has", v)] => do
    let o ← o.enter?
    (Attribute.read? o v).map .has
  | .map [("compare", .list [asked, comparison, value])] => do
    let o ← o.enter?
    let o ← o.enter?
    readCompare? o asked comparison value
  | .map [("compare", .map entries)] => do
    let o ← o.enter?
    let o ← o.enter?
    readCompare? o (← o.required? entries "attribute") (← o.required? entries "comparison")
      (← o.required? entries "value")
  | .map [("and", .list [left, right])] => do
    let o ← o.enter?
    let o ← o.enter?
    return .and (← read? o left) (← read? o right)
  | .map [("or", .list [left, right])] => do
    let o ← o.enter?
    let o ← o.enter?
    return .or (← read? o left) (← read? o right)
  | _ => none

/-- The predicates of a value. -/
def Predicate.readList? (o : Origin) (v : Value) : Option (List Predicate) := do
  let items ← v.asList?
  let o ← o.enter?
  Value.readAll? (Predicate.read? o) items

/-- The step whose parts are given. -/
def Step.readParts? (o : Origin) (axis test : Value) (predicates : Option Value) :
    Option Step := do
  let axis ← Axis.read? o axis
  let test ← NodeTest.read? o test
  match predicates with
  | none => return ⟨axis, test, []⟩
  | some v => return ⟨axis, test, ← Predicate.readList? o v⟩

/-- The step of a value. -/
def Step.read? (o : Origin) : Value → Option Step
  | .map entries => do
    let o ← o.enter?
    readParts? o (← o.required? entries "axis") (← o.required? entries "test")
      (← o.part? entries "predicates")
  | .list [axis, test] => do readParts? (← o.enter?) axis test none
  | .list [axis, test, predicates] => do readParts? (← o.enter?) axis test (some predicates)
  | _ => none

/-- The plan whose parts are given. -/
def Plan.readParts? (o : Origin) (anchor steps : Value) : Option Plan := do
  let anchor ← Anchor.read? o anchor
  let items ← steps.asList?
  let o ← o.enter?
  return ⟨anchor, ← Value.readAll? (Step.read? o) items⟩

/-- The plan of a value. -/
def Plan.read? (o : Origin) : Value → Option Plan
  | .map entries => do
    let o ← o.enter?
    readParts? o (← o.required? entries "anchor") (← o.required? entries "steps")
  | .list [anchor, steps] => do readParts? (← o.enter?) anchor steps
  | _ => none

/-- The plan of a tree of values. -/
def Plan.ofValue? (v : Value) : Option Plan := read? .tree v

end FeatureTree.Traversal
