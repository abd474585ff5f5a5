import FeatureTree.Value

/-!
# Values as YAML text

Lists and maps are written in block style, one item or entry per line. An item
starts after a dash, a map under a name is indented by two blanks, a list under
a name is not indented, and lists and maps without entries are written as a
pair of brackets. Texts are written as they are: the words that configurations
are made of need no quotes.
-/

namespace FeatureTree.Yaml

/-- A scalar, or a list or map without entries. -/
def scalarText : Value → String
  | .null => "null"
  | .bool b => if b then "true" else "false"
  | .nat n => toString n
  | .number t => t
  | .text s => s
  | .list _ => "[]"
  | .map _ => "\x7b\x7d"

/-- Blanks at the start of a line. -/
def margin (column : Nat) : String := String.ofList (List.replicate column ' ')

mutual

/-- A value where its text starts at a column on a line that has begun. -/
def printAt (column : Nat) : Value → String
  | .list (v :: vs) => "- " ++ printAt (column + 2) v ++ printItems column vs
  | .map ((k, v) :: es) => k ++ ":" ++ printUnder column v ++ printEntries column es
  | v => scalarText v ++ "\n"

/-- The items of a list, each on a line of its own. -/
def printItems (column : Nat) : List Value → String
  | [] => ""
  | v :: vs => margin column ++ "- " ++ printAt (column + 2) v ++ printItems column vs

/-- The entries of a map, each on a line of its own. -/
def printEntries (column : Nat) : List (String × Value) → String
  | [] => ""
  | (k, v) :: es => margin column ++ k ++ ":" ++ printUnder column v ++ printEntries column es

/-- A value after the name and the colon of an entry at a column. -/
def printUnder (column : Nat) : Value → String
  | .list (v :: vs) => "\n" ++ margin column ++ "- " ++ printAt (column + 2) v ++
      printItems column vs
  | .map ((k, v) :: es) => "\n" ++ margin (column + 2) ++ k ++ ":" ++ printUnder (column + 2) v ++
      printEntries (column + 2) es
  | v => " " ++ scalarText v ++ "\n"

end

/-- A value as the text of a document. -/
def print (v : Value) : String := printAt 0 v

end FeatureTree.Yaml
