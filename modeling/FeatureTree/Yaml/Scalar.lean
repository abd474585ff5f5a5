import FeatureTree.Yaml.Cursor

/-!
# YAML scalars

A scalar is plain or stands in quotes, and may run over several lines: a single
line end between two words is a blank, further ones stay. Plain scalars end
before a colon and a blank and before a comment; inside brackets they end
before brackets, braces and commas too. On later lines they must be indented.
In double quotes a backslash starts an escape.
-/

namespace FeatureTree.Yaml

open Cursor

/-- What stands between two words of a scalar: the blanks before the first line
end, and what each line end stands for. -/
structure Gap where
  blanks : List Char
  breaks : List (List Char)
  deriving DecidableEq, Repr

namespace Gap

/-- The gap holds a line end. -/
def isBroken (g : Gap) : Bool := !g.breaks.isEmpty

/-- The text that a gap stands for. The first line end is dropped where others
follow, and is a blank where it is alone; only a line or paragraph separator
stays as it is. -/
def text (g : Gap) : List Char :=
  match g.breaks with
  | [] => g.blanks
  | first :: further =>
    if first != ['\n'] then first ++ further.flatten
    else if further.isEmpty then [' ']
    else further.flatten

end Gap

/-- Takes line ends and the blanks after each of them. A tab in front of the
column `margin` is no indentation, and fails. The fuel bounds the number of
lines. -/
def takeBreaks (margin : Nat) : Nat → Cursor → Option (List (List Char) × Cursor)
  | 0, k => some ([], k)
  | fuel + 1, k =>
    match k.break? with
    | none => some ([], k)
    | some (first, k) => do
      let (blanks, k) := k.span isBlank
      if (blanks.take margin).contains '\t' then none
      let (further, k) ← takeBreaks margin fuel k
      return (first :: further, k)

/-- Takes the blanks and line ends that come next. The fuel bounds the number of
lines. -/
def takeGap (fuel margin : Nat) (k : Cursor) : Option (Gap × Cursor) := do
  let (blanks, k) := k.span isBlank
  let (breaks, k) ← takeBreaks margin fuel k
  return (⟨blanks, breaks⟩, k)

/-- A character that ends a plain scalar inside brackets. -/
def isFlowMark (c : Char) : Bool :=
  c == ',' || c == '[' || c == ']' || c == '\x7b' || c == '\x7d'

/-- Where a plain scalar can begin. -/
def startsPlain (flow : Bool) : List Char → Bool
  | [] => false
  | '-' :: s => !s.head?.any isBlank
  | c :: s =>
    if c == '?' || c == ':' then !flow && !isBlankNext s
    else !(isBlank c || isBreak c || isFlowMark c ||
      ['#', '&', '*', '!', '|', '>', '\'', '"', '%', '@'].contains c || c.toNat == 96)

/-- The number of characters of a plain scalar up to the next blank or its end,
`n` of which are known. Inside brackets a colon right before a mark fits
nothing. -/
def wordLength (flow : Bool) (n : Nat) : List Char → Option Nat
  | [] => some n
  | c :: s =>
    if isBlank c || isBreak c then some n
    else if flow && c == ':' && (s.head?.any fun d => isFlowMark d || d == '?') then none
    else if (c == ':' && isBlankNext s) || (flow && isFlowMark c) then some n
    else wordLength flow (n + 1) s

/-- Takes the words of a plain scalar from a place behind a gap on, where `text`
is the text before the gap in reverse. Answers with the text, whether a line
end was passed behind it, and the cursor behind that. The fuel bounds the
number of characters. -/
def plainWords (flow : Bool) (margin : Nat) :
    Nat → List Char → Gap → Cursor → Option (List Char × Bool × Cursor)
  | 0, text, gap, k => some (text.reverse, gap.isBroken, k)
  | fuel + 1, text, gap, k =>
    if k.atMarker || k.at? '#' then some (text.reverse, gap.isBroken, k)
    else do
      let n ← wordLength flow 0 k.rest
      if n = 0 then some (text.reverse, gap.isBroken, k)
      else
        let text := (k.rest.take n).reverseAux (gap.text.reverseAux text)
        let k := k.skip n
        if k.rest.isEmpty || !isBlankNext k.rest then some (text.reverse, false, k)
        else
          let (gap, k) ← takeGap fuel margin k
          if !flow && k.column < margin then some (text.reverse, gap.isBroken, k)
          else plainWords flow margin fuel text gap k

/-- Takes a plain scalar. On later lines it stands at the column `margin` or
further right. The fuel bounds the number of characters. -/
def takePlain (fuel : Nat) (flow : Bool) (margin : Nat) (k : Cursor) :
    Option (String × Bool × Cursor) := do
  let (text, broken, k) ← plainWords flow margin fuel [] ⟨[], []⟩ k
  return (String.ofList text, broken, k)

/-- The character that hexadecimal digits stand for, and how many there are. -/
def hexEscape (digits : Nat) (s : List Char) : Option (Char × Nat) := do
  let code := s.take digits
  if code.length < digits then none
  let n ← numberIn? 16 code
  if n.isValidChar then some (Char.ofNat n, digits + 1) else none

/-- The character that the text after a backslash stands for, and how long that
text is. -/
def escaped : List Char → Option (Char × Nat)
  | [] => none
  | c :: s =>
    match c with
    | '0' => some ('\x00', 1)
    | 'a' => some ('\x07', 1)
    | 'b' => some ('\x08', 1)
    | 't' | '\t' => some ('\t', 1)
    | 'n' => some ('\n', 1)
    | 'v' => some ('\x0b', 1)
    | 'f' => some ('\x0c', 1)
    | 'r' => some ('\r', 1)
    | 'e' => some ('\x1b', 1)
    | ' ' | '"' | '/' | '\\' => some (c, 1)
    | 'N' => some ('\u0085', 1)
    | '_' => some ('\u00a0', 1)
    | 'L' => some ('\u2028', 1)
    | 'P' => some ('\u2029', 1)
    | 'x' => hexEscape 2 s
    | 'u' => hexEscape 4 s
    | 'U' => hexEscape 8 s
    | _ => none

/-- Takes the rest of a scalar in quotes, with the closing one, where `text` is
the text so far in reverse. A backslash takes back the line end behind it. The
fuel bounds the number of characters. -/
def quotedRest (double : Bool) : Nat → List Char → Cursor → Option (List Char × Cursor)
  | 0, _, _ => none
  | fuel + 1, text, k =>
    if k.atMarker then none
    else
      match k.rest with
      | [] => none
      | c :: s =>
        if isBlank c || isBreak c then do
          let (gap, k) ← takeGap fuel 0 k
          quotedRest double fuel (gap.text.reverseAux text) k
        else if c == (if double then '"' else '\'') then
          if !double && s.head? == some '\'' then quotedRest double fuel ('\'' :: text) (k.skip 2)
          else some (text.reverse, k.skip 1)
        else if double && c == '\\' then
          if s.head?.any isBreak then do
            let (breaks, k) ← takeBreaks 0 fuel (k.skip 1)
            quotedRest double fuel ((breaks.drop 1).flatten.reverseAux text) k
          else do
            let (e, n) ← escaped s
            quotedRest double fuel (e :: text) (k.skip (n + 1))
        else quotedRest double fuel (c :: text) (k.skip 1)

/-- Takes a scalar in quotes, from its opening quote on. The fuel bounds the
number of characters. -/
def takeQuoted (fuel : Nat) (double : Bool) (k : Cursor) : Option (String × Cursor) := do
  let (text, k) ← quotedRest double fuel [] (k.skip 1)
  return (String.ofList text, k)

end FeatureTree.Yaml
