/-!
# YAML tokens

A YAML text comes down to a list of tokens. Some of them are written, and some
stand for what indentation says: where a list or a map in block style begins
and ends, and that a scalar or a bracket is a key because a colon follows.
-/

namespace FeatureTree.Yaml

/-- The way in which a scalar is written. -/
inductive ScalarStyle
  | plain | singleQuoted | doubleQuoted
  /-- In lines of its own, which stay lines. -/
  | literal
  /-- In lines of its own, which are joined to paragraphs. -/
  | folded
  deriving DecidableEq, Repr

/-- A token of a YAML text. -/
inductive Token
  /-- The version of the format, before a document. -/
  | version (major minor : Nat)
  /-- What a handle stands for in the tags of a document. -/
  | handle (name : String) (start : List UInt8)
  | documentStart
  | documentEnd
  /-- A list in block style begins. -/
  | listStart
  /-- A map in block style begins. -/
  | mapStart
  /-- A list or map in block style ends. -/
  | blockEnd
  | openList
  | closeList
  | openMap
  | closeMap
  /-- A comma inside brackets. -/
  | comma
  /-- The dash of an item. -/
  | item
  | key
  | value
  | alias (name : String)
  | anchor (name : String)
  /-- A tag: a handle, and the octets after it. An empty handle says that the
  octets are the whole tag. -/
  | tag (handle : String) (octets : List UInt8)
  | scalar (style : ScalarStyle) (text : String)
  deriving DecidableEq, Repr

end FeatureTree.Yaml
