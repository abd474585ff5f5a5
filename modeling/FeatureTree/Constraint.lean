import FeatureTree.Node.Walk
import FeatureTree.Target

/-!
# Shape constraints

A snippet can be read and still be of no use for superimposition: a method with
a body where only a signature is allowed, a field without variables. A set of
constraints says which shapes are allowed. Its members are checked in order,
the constraints of this module first and then the validators that a caller has
added, and the first one that is violated gives the reason.
-/

namespace FeatureTree

/-- Why a tree was rejected, and where. -/
structure Violation where
  reason : String
  span : Span
  deriving DecidableEq, Repr

/-- A condition on the shape of a tree. -/
inductive Constraint
  /-- The root is of one of these kinds. -/
  | rootKindIn (kinds : List Kind)
  /-- The root has exactly one child of this kind. -/
  | exactlyOneChild (kind : Kind)
  /-- The number of the root's children of this kind lies between bounds. -/
  | childCount (kind : Kind) (min : Nat) (max : Option Nat)
  /-- Nothing below the root is of this kind. -/
  | forbidKind (kind : Kind)
  /-- The root has no body. -/
  | signatureOnly
  /-- The root has a body. -/
  | requireBody
  /-- The root has a name. -/
  | requireName
  deriving DecidableEq, Repr

namespace Constraint

/-- Kinds with commas between them. -/
def kindList (kinds : List Kind) : String := ", ".intercalate (kinds.map Kind.name)

/-- The bounds of a number of children, in words. -/
def bounds (min : Nat) : Option Nat → String
  | some max => if max = min then s!"exactly {min}" else s!"between {min} and {max}"
  | none => s!"at least {min}"

/-- A number of children lies between bounds. -/
def within (count min : Nat) (max : Option Nat) : Bool :=
  min ≤ count && max.all (count ≤ ·)

/-- How a tree violates a constraint, if it does. -/
def violation? (root : Node) : Constraint → Option Violation
  | .rootKindIn kinds =>
    if kinds.contains root.kind then none
    else some ⟨s!"root is a {root.kind}, expected one of: {kindList kinds}", root.span⟩
  | .exactlyOneChild kind =>
    match root.childrenOfKind kind with
    | [] => some ⟨s!"{root.kind} has no {kind} child", root.span⟩
    | [_] => none
    | _ :: extra :: more =>
      some ⟨s!"{root.kind} has {more.length + 2} {kind} children, expected exactly one",
        extra.span⟩
  | .childCount kind min max =>
    let count := (root.childrenOfKind kind).length
    if within count min max then none
    else
      some ⟨s!"{root.kind} has {count} {kind} children, expected {bounds min max}", root.span⟩
  | .forbidKind kind =>
    (root.findKind? kind).map fun found =>
      ⟨s!"{kind} is not allowed inside a {root.kind}", found.span⟩
  | .signatureOnly =>
    root.body.map fun body => ⟨s!"{root.kind} must be a signature without a body", body⟩
  | .requireBody =>
    match root.body with
    | some _ => none
    | none => some ⟨s!"{root.kind} has no body", root.span⟩
  | .requireName =>
    match root.name with
    | some _ => none
    | none => some ⟨s!"{root.kind} has no name", root.span⟩

/-- A constraint in one line. -/
protected def toString : Constraint → String
  | .rootKindIn kinds => s!"root-kind-in [{kindList kinds}]"
  | .exactlyOneChild kind => s!"exactly-one-child {kind}"
  | .childCount kind min (some max) => s!"child-count {kind} {min}..={max}"
  | .childCount kind min none => s!"child-count {kind} {min}.."
  | .forbidKind kind => s!"forbid-kind {kind}"
  | .signatureOnly => "signature-only"
  | .requireBody => "require-body"
  | .requireName => "require-name"

instance : ToString Constraint := ⟨Constraint.toString⟩

/-- The constraints on the results of a production, where nothing else is
asked for. -/
def defaults (production : Production) : List Constraint :=
  let kinds := .rootKindIn (Kind.all.filter production.accepts)
  match production with
  | .method | .constructor | .function | .property | .type =>
    [kinds, .exactlyOneChild .identifier, .requireName]
  | .field => [kinds, .childCount .variable 1 none, .requireName]
  | .declaration => [kinds, .requireName]
  | .classMember | .externalDeclaration => [kinds]

end Constraint

/-- A type of validators that callers can add to a set of constraints. -/
class Validator (V : Type) where
  /-- How a tree violates the condition of a validator, if it does. -/
  violation? : V → Node → Option Violation

/-- Nobody has added a validator. -/
instance : Validator Empty := ⟨fun v _ => nomatch v⟩

/-- Constraints, and validators that a caller has added. -/
structure ConstraintSet (V : Type) where
  constraints : List Constraint
  custom : List V
  deriving Repr

namespace ConstraintSet

variable {V : Type}

/-- Two sets are equal if their constraints are, and if their validators are the
same ones, one by one. -/
protected def beq [BEq V] (a b : ConstraintSet V) : Bool :=
  a.constraints == b.constraints && a.custom.length == b.custom.length &&
    (a.custom.zip b.custom).all fun (v, w) => v == w

instance [BEq V] : BEq (ConstraintSet V) := ⟨ConstraintSet.beq⟩

/-- The set that allows every tree. -/
def empty : ConstraintSet V := ⟨[], []⟩

/-- The set of some constraints. -/
def ofList (constraints : List Constraint) : ConstraintSet V := ⟨constraints, []⟩

/-- The set that a production's results must satisfy where nothing else is
asked for. -/
def forProduction (production : Production) : ConstraintSet V :=
  ofList (Constraint.defaults production)

/-- One more constraint, checked after the others. -/
def push (set : ConstraintSet V) (constraint : Constraint) : ConstraintSet V :=
  { set with constraints := set.constraints ++ [constraint] }

/-- One more validator, checked after all constraints. -/
def register (set : ConstraintSet V) (validator : V) : ConstraintSet V :=
  { set with custom := set.custom ++ [validator] }

/-- Number of members. -/
def size (set : ConstraintSet V) : Nat := set.constraints.length + set.custom.length

/-- The set has no members. -/
def isEmpty (set : ConstraintSet V) : Bool := set.constraints.isEmpty && set.custom.isEmpty

/-- How a tree violates the first member that it violates. -/
def violation? [Validator V] (set : ConstraintSet V) (root : Node) : Option Violation :=
  (set.constraints.findSome? (·.violation? root)).or
    (set.custom.findSome? (Validator.violation? · root))

/-- Checks a tree against all members. -/
def validate [Validator V] (set : ConstraintSet V) (root : Node) : Except Violation Unit :=
  match set.violation? root with
  | some violation => .error violation
  | none => .ok ()

end ConstraintSet

end FeatureTree
