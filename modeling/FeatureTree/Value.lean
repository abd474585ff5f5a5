/-!
# Values

Trees, plans and configurations leave and enter the program as values: scalars,
lists, and maps from names to values. Maps keep their entries in order, and a
map that is read may name an entry twice; which of these is an error is for
the reader of the value to say.
-/

namespace FeatureTree

/-- A tree of scalars, lists and maps. -/
inductive Value
  | null
  | bool (b : Bool)
  /-- A natural number. -/
  | nat (n : Nat)
  /-- Any other number, as it is written. -/
  | number (text : String)
  | text (s : String)
  | list (items : List Value)
  | map (entries : List (String × Value))
  deriving BEq, Repr, Inhabited

namespace Value

mutual

/-- How many levels of lists and maps there are. -/
def depth : Value → Nat
  | .list items => depthItems items + 1
  | .map entries => depthEntries entries + 1
  | _ => 0

/-- How many levels there are in the items of a list. -/
def depthItems : List Value → Nat
  | [] => 0
  | v :: vs => max (depth v) (depthItems vs)

/-- How many levels there are in the entries of a map. -/
def depthEntries : List (String × Value) → Nat
  | [] => 0
  | (_, v) :: es => max (depth v) (depthEntries es)

end

/-- The largest number of 64 bits. -/
def maxNat : Nat := 18446744073709551615

/-- The number, if it is one of 64 bits. -/
def asNat? : Value → Option Nat
  | .nat n => if n ≤ maxNat then some n else none
  | _ => none

/-- The text of a text. -/
def asText? : Value → Option String
  | .text s => some s
  | _ => none

/-- The truth value of one. -/
def asBool? : Value → Option Bool
  | .bool b => some b
  | _ => none

/-- The items of a list. -/
def asList? : Value → Option (List Value)
  | .list items => some items
  | _ => none

/-- The entries of a map. -/
def asMap? : Value → Option (List (String × Value))
  | .map entries => some entries
  | _ => none

/-- What is under a name in a map that may hold the name only once: nothing if
the name is there twice, and otherwise its value if it is there. -/
def unique? {α : Type} (entries : List (String × α)) (name : String) : Option (Option α) :=
  match entries.filter (·.1 == name) with
  | [] => some none
  | [(_, v)] => some (some v)
  | _ => none

/-- The results of a reader on every item, if it reads them all. -/
def readAll? {α : Type} (read : Value → Option α) : List Value → Option (List α)
  | [] => some []
  | v :: vs => do
    let a ← read v
    let as ← readAll? read vs
    return a :: as

end Value

end FeatureTree
