import FeatureTree.Value

/-!
# Values as JSON text

Two layouts: all on one line without blanks, and one entry per line, indented
by two blanks for each level, where empty lists and maps stay on their line.
Texts stand in quotes, with quotes, backslashes and control characters escaped
and all other characters as they are.
-/

namespace FeatureTree.Value

/-- The hexadecimal digit of a number below sixteen. -/
def hexDigit (n : Nat) : Char := if n < 10 then Char.ofNat (48 + n) else Char.ofNat (87 + n)

/-- A character inside quotes. -/
def escapeChar (c : Char) : List Char :=
  match c with
  | '"' => ['\\', '"']
  | '\\' => ['\\', '\\']
  | '\n' => ['\\', 'n']
  | '\r' => ['\\', 'r']
  | '\t' => ['\\', 't']
  | '\x08' => ['\\', 'b']
  | '\x0c' => ['\\', 'f']
  | c =>
    if c.toNat < 32 then ['\\', 'u', '0', '0', hexDigit (c.toNat / 16), hexDigit (c.toNat % 16)]
    else [c]

/-- A text in quotes. -/
def quoted (s : String) : String :=
  "\"" ++ String.ofList (s.toList.flatMap escapeChar) ++ "\""

/-- A scalar as text. -/
def scalarText : Value → String
  | .null => "null"
  | .bool b => if b then "true" else "false"
  | .nat n => toString n
  | .number t => t
  | .text s => quoted s
  | .list _ => "[]"
  | .map _ => "\x7b\x7d"

mutual

/-- The value on one line. -/
def compact : Value → String
  | .list items => "[" ++ compactItems items ++ "]"
  | .map entries => "\x7b" ++ compactEntries entries ++ "\x7d"
  | v => scalarText v

/-- The items of a list, with commas between them. -/
def compactItems : List Value → String
  | [] => ""
  | [v] => compact v
  | v :: w :: vs => compact v ++ "," ++ compactItems (w :: vs)

/-- The entries of a map, with commas between them. -/
def compactEntries : List (String × Value) → String
  | [] => ""
  | [(k, v)] => quoted k ++ ":" ++ compact v
  | (k, v) :: e :: es => quoted k ++ ":" ++ compact v ++ "," ++ compactEntries (e :: es)

end

/-- A new line at a level. -/
def newLine (level : Nat) : String := "\n" ++ String.ofList (List.replicate (2 * level) ' ')

mutual

/-- The value over several lines, where its own line is at a level. -/
def prettyAt (level : Nat) : Value → String
  | .list (v :: vs) => "[" ++ prettyItems (level + 1) (v :: vs) ++ newLine level ++ "]"
  | .map (e :: es) => "\x7b" ++ prettyEntries (level + 1) (e :: es) ++ newLine level ++ "\x7d"
  | v => scalarText v

/-- The items of a list, one per line. -/
def prettyItems (level : Nat) : List Value → String
  | [] => ""
  | [v] => newLine level ++ prettyAt level v
  | v :: w :: vs => newLine level ++ prettyAt level v ++ "," ++ prettyItems level (w :: vs)

/-- The entries of a map, one per line. -/
def prettyEntries (level : Nat) : List (String × Value) → String
  | [] => ""
  | [(k, v)] => newLine level ++ quoted k ++ ": " ++ prettyAt level v
  | (k, v) :: e :: es =>
    newLine level ++ quoted k ++ ": " ++ prettyAt level v ++ "," ++ prettyEntries level (e :: es)

end

/-- The value over several lines. -/
def pretty (v : Value) : String := v.prettyAt 0

end FeatureTree.Value
