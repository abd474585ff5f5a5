import FeatureTree.Text

/-!
# Blanks and comments

Between the parts of a declaration there may be blanks and comments, which
mean nothing. What counts as one depends on the language, so a grammar brings
its own `Trivia`: how to drop one blank, and how to drop one comment, off the
front of a text. `skip` drops all there are.

A comment that is not closed is no comment: `skip` stops in front of it.
-/

namespace FeatureTree

namespace Text

/-- Applies a step as often as it succeeds, at most once for each element of
the bound. -/
def iterate {α β : Type} (step : α → Option α) : List β → α → α
  | [], s => s
  | _ :: bound, s =>
    match step s with
    | some s' => iterate step bound s'
    | none => s

/-- A blank, a tab, an end of line, or a byte order mark. -/
def isBlank (c : Char) : Bool :=
  c == ' ' || c == '\t' || c == '\r' || c == '\n' || c == '\ufeff'

/-- Drops one blank. -/
def blank? : List Char → Option (List Char)
  | [] => none
  | c :: s => if isBlank c then some s else none

/-- Drops one end of line. -/
def newline? : List Char → Option (List Char)
  | '\n' :: s => some s
  | '\r' :: '\n' :: s => some s
  | '\r' :: s => some s
  | _ => none

/-- Drops a backslash and the end of line after it. -/
def joinedLine? : List Char → Option (List Char)
  | '\\' :: s => newline? s
  | _ => none

/-- The text from the next end of line on. -/
def dropLine (s : List Char) : List Char :=
  s.dropWhile fun c => c != '\n' && c != '\r'

/-- The text from the next end of line on that has no backslash in front. -/
def dropJoinedLines (s : List Char) : List Char :=
  iterate (fun s =>
    match joinedLine? s with
    | some rest => some rest
    | none =>
      match s with
      | [] => none
      | c :: rest => if c == '\n' || c == '\r' then none else some rest) s s

/-- What follows the next `*/`. -/
def afterClose? : List Char → Option (List Char)
  | [] => none
  | '*' :: '/' :: s => some s
  | _ :: s => afterClose? s

/-- Drops a comment that runs from two slashes to the end of the line. -/
def lineComment? : List Char → Option (List Char)
  | '/' :: '/' :: s => some (dropLine s)
  | _ => none

/-- Drops a comment that runs from `/*` to the next `*/`. -/
def blockComment? : List Char → Option (List Char)
  | '/' :: '*' :: s => afterClose? s
  | _ => none

/-- Drops a directive: a number sign and the rest of its line. -/
def directive? : List Char → Option (List Char)
  | '#' :: s => some (dropLine s)
  | _ => none

/-- Drops a directive whose line goes on after a backslash at its end. -/
def joinedDirective? : List Char → Option (List Char)
  | '#' :: s => some (dropJoinedLines s)
  | _ => none

end Text

/-- What means nothing between the parts of a declaration. Each function drops
one such piece off the front of a text. -/
structure Trivia where
  blank : List Char → Option (List Char)
  comment : List Char → Option (List Char)

namespace Trivia

/-- Drops one blank or comment. -/
def piece? (t : Trivia) (s : List Char) : Option (List Char) :=
  match t.blank s with
  | some rest => some rest
  | none => t.comment s

/-- Drops all blanks and comments at the front. -/
def skip (t : Trivia) (s : List Char) : List Char := Text.iterate t.piece? s s

/-- The text holds blanks and comments only. -/
def isTrivia (t : Trivia) (s : List Char) : Bool := (t.skip s).isEmpty

/-- The text without the blanks and comments at its end: it is cut at the
first character from which only blanks and comments follow. Where that is, is
judged by the text alone; two slashes inside a literal look like a comment
here. -/
def trim (t : Trivia) : List Char → List Char
  | [] => []
  | c :: s => if t.isTrivia (c :: s) then [] else c :: t.trim s

end Trivia

end FeatureTree
