import FeatureTree.Constraint
import FeatureTree.Value

/-!
# Constraints as values

A constraint without parameters is its name. One with parameters is a map with
its name as the only entry: a kind, a list of kinds, or for `child-count` a map
with the kind, the least number, and the greatest if there is one.

Reading takes the same forms. In the map of `child-count` the least number can
be missing and is then zero, the greatest can be missing or null, other names
are passed over, and none of its own may occur twice; a list of the three in
this order, of which the later ones can be missing, does as well.
-/

namespace FeatureTree.Constraint

/-- A constraint as a value. -/
def toValue : Constraint → Value
  | .rootKindIn kinds => .map [("root-kind-in", .list (kinds.map fun k => .text k.name))]
  | .exactlyOneChild kind => .map [("exactly-one-child", .text kind.name)]
  | .childCount kind min max =>
    .map [("child-count", .map ([("kind", .text kind.name), ("min", .nat min)] ++
      match max with
      | some m => [("max", .nat m)]
      | none => []))]
  | .forbidKind kind => .map [("forbid-kind", .text kind.name)]
  | .signatureOnly => .text "signature-only"
  | .requireBody => .text "require-body"
  | .requireName => .text "require-name"

/-- A kind as a value. -/
def kindOfValue? (v : Value) : Option Kind := v.asText?.bind Kind.ofName?

/-- The `child-count` of a kind with the bounds that are given. -/
def childCountOf? (kind : Value) (min max : Option Value) : Option Constraint := do
  let kind ← kindOfValue? kind
  let min ← match min with
    | none => some 0
    | some v => v.asNat?
  let max ← match max with
    | none | some .null => some none
    | some v => v.asNat?.map some
  return .childCount kind min max

/-- The `child-count` whose parameters are in a map. -/
def childCountOfEntries? (entries : List (String × Value)) : Option Constraint := do
  let kind ← Value.unique? entries "kind"
  let min ← Value.unique? entries "min"
  let max ← Value.unique? entries "max"
  childCountOf? (← kind) min max

/-- The `child-count` whose parameters are in a list. -/
def childCountOfList? : List Value → Option Constraint
  | [kind] => childCountOf? kind none none
  | [kind, min] => childCountOf? kind (some min) none
  | [kind, min, max] => childCountOf? kind (some min) (some max)
  | _ => none

/-- The constraint that a value stands for. -/
def ofValue? : Value → Option Constraint
  | .text "signature-only" => some .signatureOnly
  | .text "require-body" => some .requireBody
  | .text "require-name" => some .requireName
  | .map [("root-kind-in", v)] =>
    (v.asList?.bind (Value.readAll? kindOfValue?)).map .rootKindIn
  | .map [("exactly-one-child", v)] => (kindOfValue? v).map .exactlyOneChild
  | .map [("forbid-kind", v)] => (kindOfValue? v).map .forbidKind
  | .map [("child-count", .map entries)] => childCountOfEntries? entries
  | .map [("child-count", .list parts)] => childCountOfList? parts
  | _ => none

/-- A list of constraints as a value. -/
def listToValue (constraints : List Constraint) : Value := .list (constraints.map toValue)

end FeatureTree.Constraint
