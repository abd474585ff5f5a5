import FeatureTree.Yaml.Cursor

/-!
# YAML block scalars

A block scalar is a text in lines of its own, further right than what it
belongs to. Its sign says whether its lines stay lines or are joined to
paragraphs, and marks after the sign say how the last line end is treated and
how far right the text stands, if that is not to be taken from its first line.
-/

namespace FeatureTree.Yaml

open Cursor

/-- What becomes of the line ends at the end of a block scalar. -/
inductive Chomp
  /-- None stays. -/
  | strip
  /-- The first one stays. -/
  | clip
  /-- All stay. -/
  | keep
  deriving DecidableEq, Repr

/-- The mark for the line ends at the end, if there is one. -/
def takeChomp (k : Cursor) : Option Chomp × Cursor :=
  if k.at? '+' then (some .keep, k.skip 1)
  else if k.at? '-' then (some .strip, k.skip 1)
  else (none, k)

/-- The mark for the indentation, if there is one. Zero is no such mark. -/
def takeIndent (k : Cursor) : Option (Option Nat × Cursor) :=
  match k.rest with
  | c :: _ =>
    if !c.isDigit then some (none, k)
    else if c == '0' then none
    else some (some (c.toNat - 48), k.skip 1)
  | [] => some (none, k)

/-- Takes the marks after the sign, in either order, and the end of their
line. -/
def takeHeader (k : Cursor) : Option (Chomp × Option Nat × Cursor) := do
  let (chomp, k) := takeChomp k
  let (indent, k) ← takeIndent k
  let (chomp, k) := if chomp.isNone && indent.isSome then takeChomp k else (chomp, k)
  let k ← k.lineEnd?
  return (chomp.getD .clip, indent, k)

/-- Takes empty lines and the margin of the line after them, where the text of
the scalar stands at the column `indent`, or else is looked for; `widest` is
the widest margin so far. Answers with the line ends, the widest margin and the
cursor. A tab in the margin fails. The fuel bounds the number of lines. -/
def emptyLines (indent : Option Nat) :
    Nat → Nat → Cursor → Option (List Char × Nat × Cursor)
  | 0, widest, k => some ([], widest, k)
  | fuel + 1, widest, k =>
    let blanks := (k.rest.takeWhile (· == ' ')).length
    let k := k.skip (indent.elim blanks fun n => min blanks (n - k.column))
    let widest := max widest k.column
    if (indent.all (k.column < ·)) && k.at? '\t' then none
    else
      match k.break? with
      | none => some ([], widest, k)
      | some (first, k) => do
        let (further, widest, k) ← emptyLines indent fuel widest k
        return (first ++ further, widest, k)

/-- What stands between two lines of a scalar whose lines are joined or stay. A
line that starts with a blank is joined to no other. -/
def between (joined : Bool) (lineEnd further : List Char) : List Char :=
  if joined && lineEnd == ['\n'] then if further.isEmpty then [' '] else further
  else lineEnd ++ further

/-- Takes the lines of a scalar whose text stands at a column. `text` is the text
so far in reverse, `spaced` tells that its last line starts with a blank,
`lineEnd` is the end of that line and `further` the line ends after it. The
fuel bounds the number of characters. -/
def blockLines (folded : Bool) (indent : Nat) : Nat → List Char → Bool → List Char →
    List Char → Cursor → Option (List Char × List Char × List Char × Cursor)
  | 0, text, _, lineEnd, further, k => some (text, lineEnd, further, k)
  | fuel + 1, text, spaced, lineEnd, further, k =>
    if k.column != indent || k.rest.isEmpty then some (text, lineEnd, further, k)
    else do
      let blank := k.rest.head?.any isBlank
      let joint := between (folded && !spaced && !blank) lineEnd further
      let (line, k) := k.span (!isBreak ·)
      let (lineEnd, k) := k.break?.getD ([], k)
      let (further, _, k) ← emptyLines (some indent) fuel 0 k
      blockLines folded indent fuel (line.reverseAux (joint.reverseAux text)) blank lineEnd
        further k

/-- Takes a block scalar, from its sign on. Its text stands further right than the
column `outer` of what it belongs to. The fuel bounds the number of
characters. -/
def takeBlockScalar (fuel : Nat) (folded : Bool) (outer : Option Nat) (k : Cursor) :
    Option (String × Cursor) := do
  let (chomp, mark, k) ← takeHeader (k.skip 1)
  let indent := mark.map (outer.getD 0 + ·)
  let (further, widest, k) ← emptyLines indent fuel 0 k
  let indent := indent.getD (max (max widest (outer.elim 0 (· + 1))) 1)
  let (text, lineEnd, further, k) ←
    blockLines folded indent fuel [] false [] further k
  let tail := match chomp with
    | .strip => []
    | .clip => lineEnd
    | .keep => lineEnd ++ further
  return (String.ofList (tail.reverseAux text).reverse, k)

end FeatureTree.Yaml
