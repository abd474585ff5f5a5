import FeatureTree.Value
import FeatureTree.Yaml.Node

/-!
# What a node can be read as

Who reads a node says what it should be: a text, a truth value, a number, a
name out of several, a list, or a map. An alias is followed to its node, and a
node that is empty is an empty list or map.

A document that follows aliases more than a hundred times for each of its
parts is refused, so that a short text cannot stand for a very long one. What
is never looked at is never followed.
-/

namespace FeatureTree.Yaml

/-- A reader of a document: it knows the nodes with anchors, and how often
aliases may still be followed. -/
abbrev Reader := ReaderT (List (Nat × Node)) (StateT Nat Option)

namespace Reader

/-- What a reader makes of the document with a given root. -/
def ofRoot {α : Type} (read : Node → Reader α) (root : Node) : Option α :=
  (((read root).run root.anchored.reverse).run (100 * root.size)).map (·.1)

/-- A part that must be there. -/
def need {α : Type} : Option α → Reader α
  | some a => pure a
  | none => failure

end Reader

open Reader

namespace Node

/-- The node that a node stands for. -/
def follow : Node → Reader Node
  | .alias number => do
    let left ← get
    if left = 0 then failure
    set (left - 1)
    need (((← read).find? (·.1 == number)).map (·.2))
  | n => pure n

/-- A plain scalar that means nothing. -/
def isNullText (text : String) : Bool := ["null", "Null", "NULL", "~"].contains text

/-- The node as a text. -/
def asText (n : Node) : Reader String := do
  match ← n.follow with
  | .scalar _ _ text => pure text
  | _ => failure

/-- The node as a scalar of a sort of the format's own: a plain one whatever its
tag, or a literal one with the tag of the sort. -/
def asPlain (sort : String) (n : Node) : Reader String := do
  match ← n.follow with
  | .scalar _ .plain text => pure text
  | .scalar marks .literal text => if marks.tag == some (Tag.core sort) then pure text else failure
  | _ => failure

/-- The node as a truth value. -/
def asBool (n : Node) : Reader Bool := do
  match ← n.asPlain "bool" with
  | "true" | "True" | "TRUE" => pure true
  | "false" | "False" | "FALSE" => pure false
  | _ => failure

/-- The natural number that a scalar writes: decimal without zeros in front, or
with a sign for its base. -/
def natural? (cs : List Char) : Option Nat :=
  let cs := match cs with
    | '+' :: rest => rest
    | _ => cs
  let n := match cs with
    | '0' :: 'x' :: s => numberIn? 16 s
    | '0' :: 'o' :: s => numberIn? 8 s
    | '0' :: 'b' :: s => numberIn? 2 s
    | ['0'] => some 0
    | '0' :: _ => none
    | _ => numberIn? 10 cs
  n.filter (· ≤ Value.maxNat)

/-- The node as a natural number of 64 bits. -/
def asNat (n : Node) : Reader Nat := do need (natural? (← n.asPlain "int").toList)

/-- The node as a natural number, or as none if it means nothing. A plain scalar
without a tag may be empty or say so, one with the tag for it must say so, and
with any other tag it is a number. -/
def asNat? (n : Node) : Reader (Option Nat) := do
  let n ← n.follow
  match n with
  | .scalar ⟨_, none⟩ .plain text =>
    if text.isEmpty || isNullText text then pure none else some <$> n.asNat
  | .scalar ⟨_, some tag⟩ .plain text =>
    if tag != Tag.core "null" then some <$> n.asNat
    else if isNullText text then pure none
    else failure
  | n => some <$> n.asNat

/-- The node as a list. -/
def asList (n : Node) : Reader (List Node) := do
  match ← n.follow with
  | .list _ items => pure items
  | .scalar _ .plain "" => pure []
  | _ => failure

/-- The node as a map whose keys are texts. -/
def asMap (n : Node) : Reader (List (String × Node)) := do
  match ← n.follow with
  | .map _ entries => entries.mapM fun (k, v) => return (← k.asText, v)
  | .scalar _ .plain "" => pure []
  | _ => failure

/-- The node as a name out of several: a text, or a tag with nothing behind
it. -/
def asName {α : Type} (ofName? : String → Option α) (n : Node) : Reader α := do
  match ← n.follow with
  | .scalar marks style text =>
    match marks.tag.bind Tag.name? with
    | some name =>
      if style == .plain && (text.isEmpty || isNullText text) then need (ofName? name)
      else failure
    | none => need (ofName? text)
  | _ => failure

/-- A tag that makes its node something else than a name: one with a name of its
own, or one of the format's sorts that are no texts. -/
def isOtherSort (tag : Tag) : Bool :=
  tag.name?.isSome || ["bool", "int", "float", "null"].any fun sort => tag == Tag.core sort

/-- The node as a name out of several that stands alone, or as the only entry of
a map under such a name. -/
def asNameOrEntry {α : Type} (name : String → Option α) (entry : String → Node → Reader α)
    (n : Node) : Reader α := do
  match ← n.follow with
  | .scalar marks _ text => if marks.tag.any isOtherSort then failure else need (name text)
  | .map marks [(k, v)] =>
    if (marks.tag.bind Tag.name?).isSome then failure else entry (← k.asText) v
  | _ => failure

end Node

end FeatureTree.Yaml
