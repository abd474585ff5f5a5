import FeatureTree.Yaml.BlockScalar
import FeatureTree.Yaml.Scalar
import FeatureTree.Yaml.Tag

/-!
# Tokens of a YAML text

Most tokens are found one after the other. What takes a look back is that a
scalar, a bracket, an alias, an anchor or a tag turns out to be a key only when
the colon comes. So the scanner remembers where a key may have begun, at most
once for each pair of open brackets, and puts the token of the key in front of
it when it sees the colon on the same line, not too far behind. Where the
indentation asks for a key, it is an error if none comes.

Outside brackets the column tells where lists and maps begin and end. The
scanner keeps the columns of the open ones.
-/

namespace FeatureTree.Yaml

open Cursor

/-- A place where a key may have begun. -/
structure KeyStart where
  place : Place
  /-- The number of tokens before it. -/
  before : Nat
  /-- The indentation asks for a key here. -/
  required : Bool
  deriving DecidableEq, Repr

namespace KeyStart

/-- The number of characters that a key can have. -/
def maxLength : Nat := 1024

/-- A key that began here would be too long at a place, or run over lines. -/
def isStale (s : KeyStart) (p : Place) : Bool :=
  s.place.line < p.line || s.place.index + maxLength < p.index

end KeyStart

/-- What is known in the middle of a text. -/
structure Scanner where
  /-- More than the number of characters of the text, which bounds every loop. -/
  fuel : Nat
  cursor : Cursor
  /-- The tokens so far. -/
  tokens : Array Token
  /-- The columns of the open lists and maps in block style, the innermost one
  first. -/
  columns : List Nat
  /-- Where a key may have begun inside the innermost brackets. -/
  keyStart : Option KeyStart
  /-- The same for the brackets around, one for each open pair. -/
  outer : List (Option KeyStart)
  /-- A key may begin at the cursor. -/
  keyAllowed : Bool

namespace Scanner

/-- The scanner at the start of a text. -/
def start (text : List Char) : Scanner :=
  ⟨text.length + 1, .start text, #[], [], none, [], true⟩

/-- Brackets are open. -/
def inFlow (s : Scanner) : Bool := !s.outer.isEmpty

/-- The least column of what belongs to the innermost open list or map. -/
def margin (s : Scanner) : Nat := s.columns.head?.elim 0 (· + 1)

/-- Adds a token. -/
def push (s : Scanner) (t : Token) : Scanner := { s with tokens := s.tokens.push t }

/-- Adds a token behind the first `before` ones. -/
def insert (s : Scanner) (before : Nat) (t : Token) : Scanner :=
  { s with tokens := s.tokens.insertIdxIfInBounds before t }

/-- A token that is put in front of the last ones moves nothing else. -/
theorem tokens_insert (s : Scanner) (first last : Array Token) (t : Token)
    (h : s.tokens = first ++ last) :
    (s.insert first.size t).tokens = first ++ #[t] ++ last := by
  have at_length : ∀ xs ys : List Token, (xs ++ ys).insertIdx xs.length t = xs ++ t :: ys := by
    intro xs ys
    induction xs with
    | nil => simp
    | cons x xs ih => simpa using ih
  have fits : first.size ≤ (first ++ last).size := by simp
  rw [insert, h, Array.insertIdxIfInBounds, dif_pos fits]
  apply Array.toList_inj.1
  rw [Array.toList_insertIdx]
  simpa using at_length first.toList last.toList

/-- Adds a token and goes on behind it. -/
def pushTo (s : Scanner) (t : Token) (k : Cursor) : Scanner := { s.push t with cursor := k }

/-- Adds a token of one character and goes on behind it. -/
def pushChar (s : Scanner) (t : Token) : Scanner := s.pushTo t (s.cursor.skip 1)

/-- Says whether a key may begin. -/
def allowKey (s : Scanner) (allowed : Bool) : Scanner := { s with keyAllowed := allowed }

/-- Forgets where a key may have begun, if none is required there. -/
def dropKeyStart (s : Scanner) : Option Scanner :=
  if s.keyStart.any (·.required) then none else some { s with keyStart := none }

/-- Remembers that a key may begin at the cursor. -/
def saveKeyStart (s : Scanner) : Option Scanner :=
  if s.keyAllowed then do
    let s ← s.dropKeyStart
    let required := !s.inFlow && s.columns.head? == some s.cursor.column
    return { s with keyStart := some ⟨s.cursor.toPlace, s.tokens.size, required⟩ }
  else some s

/-- Begins a list or map at a column if none is open there. Its token goes
behind the first `before` ones. -/
def indent (s : Scanner) (column before : Nat) (t : Token) : Scanner :=
  if s.inFlow || column < s.margin then s
  else { s with columns := column :: s.columns }.insert before t

/-- The same at the cursor. -/
def indentHere (s : Scanner) (t : Token) : Scanner := s.indent s.cursor.column s.tokens.size t

/-- Ends the lists and maps whose columns are of a kind. -/
def closeWhile (s : Scanner) (kind : Nat → Bool) : Scanner :=
  if s.inFlow then s
  else
    let closed := s.columns.takeWhile kind
    { s with
      columns := s.columns.drop closed.length
      tokens := s.tokens ++ Array.replicate closed.length Token.blockEnd }

/-- Ends the lists and maps that stand further right than a column. -/
def closeTo (s : Scanner) (column : Nat) : Scanner := s.closeWhile (column < ·)

/-- Ends all lists and maps. -/
def closeAll (s : Scanner) : Scanner := s.closeWhile fun _ => true

/-- Drops blanks, comments and line ends from a cursor on. Tabs are blanks
inside brackets, and where no key may begin. Outside brackets a key may begin on
each further line. A byte order mark is passed over at the start of a line. The
fuel bounds the number of lines. -/
def skipLines (flow : Bool) : Nat → Bool → Cursor → Bool × Cursor
  | 0, allowed, k => (allowed, k)
  | fuel + 1, allowed, k =>
    let k := if k.column == 0 && k.at? '\ufeff' then k.skip 1 else k
    let k := (k.span fun c => c == ' ' || ((flow || !allowed) && c == '\t')).2
    let k := k.skipComment
    match k.break? with
    | some (_, k) => skipLines flow fuel (allowed || !flow) k
    | none => (allowed, k)

/-- Goes to the next token. -/
def toToken (s : Scanner) : Scanner :=
  let (allowed, k) := skipLines s.inFlow s.fuel s.keyAllowed s.cursor
  { s with keyAllowed := allowed, cursor := k }.closeTo k.column

/-- Leaves the document behind: its lists and maps end, and no key is begun. -/
def leaveDocument (s : Scanner) : Option Scanner := do
  return (← s.closeAll.dropKeyStart).allowKey false

/-- Takes an opening bracket, which may begin a key. -/
def openBracket (s : Scanner) (t : Token) : Option Scanner := do
  let s ← s.saveKeyStart
  return { s with keyStart := none, outer := s.keyStart :: s.outer }.allowKey true |>.pushChar t

/-- Takes a closing bracket. -/
def closeBracket (s : Scanner) (t : Token) : Option Scanner := do
  let s ← s.dropKeyStart
  let s := match s.outer with
    | [] => s
    | keyStart :: outer => { s with keyStart := keyStart, outer := outer }
  return s.allowKey false |>.pushChar t

/-- Takes a comma. -/
def takeComma (s : Scanner) : Option Scanner := do
  return (← s.dropKeyStart).allowKey true |>.pushChar .comma

/-- Takes the dash of an item. Inside brackets it fits nowhere, which is for the
reader of the tokens to see. -/
def takeItem (s : Scanner) : Option Scanner := do
  if !s.inFlow && !s.keyAllowed then none
  return (← (s.indentHere .listStart).dropKeyStart).allowKey true |>.pushChar .item

/-- Takes the question mark of a key. -/
def takeKey (s : Scanner) : Option Scanner := do
  if !s.inFlow && !s.keyAllowed then none
  return (← (s.indentHere .mapStart).dropKeyStart).allowKey (!s.inFlow) |>.pushChar .key

/-- Takes the colon of a value. If a key may have begun, it did, unless it would
have begun too far back. -/
def takeValue (s : Scanner) : Option Scanner := do
  let s ← if s.keyStart.any (·.isStale s.cursor.toPlace) then s.dropKeyStart else some s
  match s.keyStart with
  | some k =>
    let s := { s.insert k.before .key with keyStart := none }
    return (s.indent k.place.column k.before .mapStart).allowKey false |>.pushChar .value
  | none =>
    if !s.inFlow && !s.keyAllowed then none
    return (s.indentHere .mapStart).allowKey (!s.inFlow) |>.pushChar .value

/-- Takes a scalar in quotes. -/
def takeQuotes (s : Scanner) (double : Bool) : Option Scanner := do
  let s ← s.saveKeyStart
  let (text, k) ← takeQuoted s.fuel double s.cursor
  let style := if double then ScalarStyle.doubleQuoted else .singleQuoted
  return s.allowKey false |>.pushTo (.scalar style text) k

/-- Takes a plain scalar. If it was followed by a line end, a key may begin. -/
def takePlainScalar (s : Scanner) : Option Scanner := do
  let s ← s.saveKeyStart
  let (text, broken, k) ← takePlain s.fuel s.inFlow s.margin s.cursor
  return s.allowKey broken |>.pushTo (.scalar .plain text) k

/-- Takes a block scalar, behind which a key may begin. -/
def takeBlock (s : Scanner) (folded : Bool) : Option Scanner := do
  let s ← s.dropKeyStart
  let (text, k) ← takeBlockScalar s.fuel folded s.columns.head? s.cursor
  let style := if folded then ScalarStyle.folded else .literal
  return s.allowKey true |>.pushTo (.scalar style text) k

/-- Takes a name with its sign. -/
def takeSign (s : Scanner) (token : String → Token) : Option Scanner := do
  let s ← s.saveKeyStart
  let (name, k) ← takeName s.cursor
  return s.allowKey false |>.pushTo (token name) k

/-- Takes a tag. -/
def takeSort (s : Scanner) : Option Scanner := do
  let s ← s.saveKeyStart
  let (t, k) ← takeTag s.fuel s.inFlow s.cursor
  return s.allowKey false |>.pushTo t k

/-- Takes a directive, a marker, or else what the first character begins. -/
def takeToken (s : Scanner) : Option Scanner :=
  match s.cursor.rest with
  | [] => none
  | c :: rest =>
    if c == '%' && s.cursor.column == 0 then do
      let s ← s.leaveDocument
      let (t, k) ← takeDirective s.fuel s.cursor
      return s.pushTo t k
    else if s.cursor.atMarker then do
      let s ← s.leaveDocument
      return s.pushTo (if c == '-' then .documentStart else .documentEnd) (s.cursor.skip 3)
    else if c == '[' then s.openBracket .openList
    else if c == '\x7b' then s.openBracket .openMap
    else if c == ']' then s.closeBracket .closeList
    else if c == '\x7d' then s.closeBracket .closeMap
    else if c == ',' then s.takeComma
    else if c == '-' && isBlankNext rest then s.takeItem
    else if c == '?' && (s.inFlow || isBlankNext rest) then s.takeKey
    else if c == ':' && (s.inFlow || isBlankNext rest) then s.takeValue
    else if c == '*' then s.takeSign .alias
    else if c == '&' then s.takeSign .anchor
    else if c == '!' then s.takeSort
    else if c == '|' && !s.inFlow then s.takeBlock false
    else if c == '>' && !s.inFlow then s.takeBlock true
    else if c == '\'' then s.takeQuotes false
    else if c == '"' then s.takeQuotes true
    else if startsPlain s.inFlow s.cursor.rest then s.takePlainScalar
    else none

/-- Takes tokens up to the end of the text. The fuel bounds their number. -/
def run : Nat → Scanner → Option (Array Token)
  | 0, _ => none
  | fuel + 1, s => do
    let s := s.toToken
    if s.cursor.rest.isEmpty then return (← s.leaveDocument).tokens
    run fuel (← s.takeToken)

end Scanner

/-- The tokens of a text, if it has a token everywhere. -/
def Token.scan (text : List Char) : Option (List Token) :=
  if !text.all isPrintable then none
  else ((Scanner.start text).run (text.length + 1)).map Array.toList

end FeatureTree.Yaml
