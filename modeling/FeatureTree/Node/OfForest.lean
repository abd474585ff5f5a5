import FeatureTree.Grammar.Role
import FeatureTree.Node.Basic

/-!
# Trees from matches

A node is made from the record of a rule whose role is to be one. The records
inside it fill in the rest: nodes become children, the first name names the
node, the first body is its body. Rules without a role of their own are looked
through, so names and bodies reach the node around them from any depth; hidden
rules keep theirs to themselves.

A match can end in blanks and comments, because the gap in front of an optional
part is taken even when the part is missing. Spans leave these out.
-/

namespace FeatureTree

/-- What the records inside a node have contributed so far. -/
structure Draft where
  name : Option String
  fallback : Option String
  children : List Node
  body : Option Span

namespace Draft

/-- Nothing contributed yet. -/
def empty : Draft := ⟨none, none, [], none⟩

/-- One more child. -/
def addChild (d : Draft) (n : Node) : Draft := { d with children := d.children ++ [n] }

/-- A declared name. Only the first one counts; for some kinds it stands among
the children too. -/
def addName (d : Draft) (kind : Kind) (name : String) (span : Span) : Draft :=
  match d.name with
  | some _ => d
  | none =>
    let d := if kind.hasIdentifierChild then d.addChild (.leaf .identifier (some name) span) else d
    { d with name := some name }

/-- A name to fall back on. Only the first one counts. -/
def addFallback (d : Draft) (name : String) : Draft :=
  { d with fallback := some (d.fallback.getD name) }

/-- An implementation text. Only the first one counts. -/
def addBody (d : Draft) (span : Span) : Draft :=
  { d with body := some (d.body.getD span) }

/-- The name of the finished node. Fields and declarations that declare no name
themselves are named after their first child, or else by the fallback. -/
def finalName (d : Draft) (kind : Kind) : Option String :=
  match d.name with
  | some name => some name
  | none =>
    if kind == .field || kind == .declaration then
      (d.children.head?.bind (·.name)).or d.fallback
    else none

/-- The finished node. -/
def finish (d : Draft) (kind : Kind) (span : Span) : Node :=
  ⟨kind, d.finalName kind, d.children, span, d.body⟩

end Draft

namespace SnippetGrammar

variable {R : Type} (g : SnippetGrammar R)

/-- The span of a match in a text of `total` bytes: it starts where the match
does and leaves out blanks and comments at the end. -/
def spanOf (total : Nat) (before after : List Char) : Span :=
  let start := total - Text.byteLength before
  ⟨start, start + Text.byteLength (g.trivia.trim (Forest.taken before after))⟩

/-- Adds to a node of some kind what a sequence of records contributes. -/
def contribute (total : Nat) (kind : Kind) : Forest R → Draft → Draft
  | .nil, d => d
  | .cons rule before after inner next, d =>
    contribute total kind next
      (match g.role rule with
      | .node k =>
        d.addChild ((contribute total k inner .empty).finish k (g.spanOf total before after))
      | .name =>
        d.addName kind (String.ofList (Forest.taken before after)) (g.spanOf total before after)
      | .fallbackName => d.addFallback (String.ofList (Forest.taken before after))
      | .body => d.addBody (g.spanOf total before after)
      | .transparent => contribute total kind inner d
      | .hidden => d)

/-- The node of a record that is to be one. -/
def nodeOf (total : Nat) (kind : Kind) (before after : List Char) (inner : Forest R) : Node :=
  (g.contribute total kind inner .empty).finish kind (g.spanOf total before after)

/-- The first node that a sequence of records makes. -/
def root? (total : Nat) : Forest R → Option Node
  | .nil => none
  | .cons rule before after inner next =>
    match g.role rule with
    | .node kind => some (g.nodeOf total kind before after inner)
    | .transparent => (root? total inner).or (root? total next)
    | _ => root? total next

end SnippetGrammar

end FeatureTree
