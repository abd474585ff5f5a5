/-!
# A place in a YAML text

Indentation gives a YAML text its structure, and a key may neither be long nor
run over lines. So whoever reads a text has to know where it is: how many
characters came before, on which line, and in which column. A cursor keeps
that together with the text that is left.
-/

namespace FeatureTree.Yaml

/-- The end of a line. -/
def isBreak (c : Char) : Bool :=
  c == '\n' || c == '\r' || c == '\u0085' || c == '\u2028' || c == '\u2029'

/-- A blank or a tab. -/
def isBlank (c : Char) : Bool := c == ' ' || c == '\t'

/-- A letter, a digit, an underscore or a dash, in ASCII. -/
def isWordChar (c : Char) : Bool := c.isAlphanum || c == '_' || c == '-'

/-- A blank, a tab, the end of a line or of the text comes first. -/
def isBlankNext : List Char → Bool
  | [] => true
  | c :: _ => isBlank c || isBreak c

/-- The end of a line or of the text comes first. -/
def isLineEnd : List Char → Bool
  | [] => true
  | c :: _ => isBreak c

/-- A character that may occur in a YAML text. -/
def isPrintable (c : Char) : Bool :=
  c == '\t' || c == '\n' || c == '\r' || (' ' ≤ c && c ≤ '~') || c == '\u0085' ||
    ('\u00a0' ≤ c && c ≤ '\ufffd') || 0x10000 ≤ c.toNat

/-- The value of a digit, hexadecimal ones included. -/
def digit? (c : Char) : Option Nat :=
  if c.isDigit then some (c.toNat - 48)
  else if 'a' ≤ c && c ≤ 'f' then some (c.toNat - 87)
  else if 'A' ≤ c && c ≤ 'F' then some (c.toNat - 55)
  else none

/-- The number that digits of a base write. -/
def numberIn? (base : Nat) (cs : List Char) : Option Nat :=
  if cs.isEmpty then none
  else cs.foldlM (fun n c => do
    let d ← digit? c
    if d < base then some (base * n + d) else none) 0

/-- A place in a text. -/
structure Place where
  /-- The number of characters before it. -/
  index : Nat
  /-- The number of lines above it. -/
  line : Nat
  /-- The number of characters before it on its line. -/
  column : Nat
  deriving DecidableEq, Repr

namespace Place

/-- The place some characters further on the same line. -/
def right (p : Place) (n : Nat) : Place := ⟨p.index + n, p.line, p.column + n⟩

/-- The start of the next line, whose characters begin after the line end. -/
def down (p : Place) (n : Nat) : Place := ⟨p.index + n, p.line + 1, 0⟩

end Place

/-- A place in a text, and the text from there on. -/
structure Cursor extends Place where
  rest : List Char
  deriving DecidableEq, Repr

namespace Cursor

/-- The start of a text. -/
def start (text : List Char) : Cursor := ⟨⟨0, 0, 0⟩, text⟩

/-- The cursor some characters further, none of which ends a line. -/
def skip (k : Cursor) (n : Nat) : Cursor := ⟨k.toPlace.right n, k.rest.drop n⟩

/-- The characters up to the first one that is not of a kind, which takes in no
line end, and the cursor behind them. -/
def span (k : Cursor) (kind : Char → Bool) : List Char × Cursor :=
  let run := k.rest.takeWhile kind
  (run, k.skip run.length)

/-- Drops blanks and tabs. -/
def skipBlanks (k : Cursor) : Cursor := (k.span isBlank).2

/-- The character at the cursor is the given one. -/
def at? (k : Cursor) (c : Char) : Bool := k.rest.head? == some c

/-- Drops a comment, which runs to the end of its line. -/
def skipComment (k : Cursor) : Cursor := if k.at? '#' then (k.span (!isBreak ·)).2 else k

/-- The line end at the cursor: the text that it stands for, and the cursor
behind it. -/
def break? (k : Cursor) : Option (List Char × Cursor) :=
  match k.rest with
  | '\r' :: '\n' :: s => some (['\n'], ⟨k.toPlace.down 2, s⟩)
  | c :: s =>
    if !isBreak c then none
    else if c == '\u2028' || c == '\u2029' then some ([c], ⟨k.toPlace.down 1, s⟩)
    else some (['\n'], ⟨k.toPlace.down 1, s⟩)
  | [] => none

/-- The cursor behind the blanks, the comment and the line end at the end of a
line, if nothing else is left on it. -/
def lineEnd? (k : Cursor) : Option Cursor :=
  let k := k.skipBlanks.skipComment
  if isLineEnd k.rest then some (k.break?.elim k (·.2)) else none

/-- A marker of three equal characters stands at the start of a line. -/
def isMarker (k : Cursor) (c : Char) : Bool :=
  k.column == 0 && k.rest.take 3 == [c, c, c] && isBlankNext (k.rest.drop 3)

/-- Three dashes or three dots at the start of a line, where a document ends. -/
def atMarker (k : Cursor) : Bool := k.isMarker '-' || k.isMarker '.'

end Cursor

end FeatureTree.Yaml
