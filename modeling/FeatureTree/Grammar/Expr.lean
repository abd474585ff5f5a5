import FeatureTree.Text

/-!
# Parsing expressions

An expression says how to take a piece off the front of a text. Choice is
ordered and repetition takes all it can: once an alternative has matched, the
later ones are never tried, and a repetition never gives back what it took.

Expressions refer to the rules of a grammar by name, so a grammar is a family
of expressions indexed by its rules. How blanks and comments come in between
is not written in the expressions; it is the `Layout` of each rule.
-/

namespace FeatureTree

/-- How a rule treats the blanks and comments between its parts, and what is
recorded of the matches inside it. -/
inductive Layout
  /-- Blanks and comments may stand between any two parts, unless the rule is
  used inside a `joined` or `token` rule: then its caller's layout holds. -/
  | spaced
  /-- Nothing may stand between the parts; matches inside are recorded. -/
  | joined
  /-- Nothing may stand between the parts; no match inside is recorded. -/
  | token
  deriving DecidableEq, Repr

namespace Layout

/-- The layout that holds inside a rule called under this layout. -/
def inside (caller : Layout) : Layout → Layout
  | .spaced => caller
  | .joined => .joined
  | .token => .token

/-- The layout that decides whether the rule itself is recorded. -/
def around (caller : Layout) : Layout → Layout
  | .joined => .joined
  | _ => caller

/-- Matches are recorded under this layout. -/
def records : Layout → Bool
  | .token => false
  | _ => true

end Layout

/-- A parsing expression over the rules `R`. -/
inductive Expr (R : Type)
  /-- A word, character for character. -/
  | text (word : List Char)
  /-- One character of a class. -/
  | char (accepts : Char → Bool)
  /-- A rule of the grammar. -/
  | rule (r : R)
  /-- The first, then the second. -/
  | both (a b : Expr R)
  /-- The first, or where that fails the second. -/
  | either (a b : Expr R)
  /-- The expression if it matches, otherwise nothing. -/
  | opt (a : Expr R)
  /-- The expression as often as it matches. -/
  | star (a : Expr R)
  /-- The expression would match here; nothing is taken. -/
  | ahead (a : Expr R)
  /-- The expression would not match here; nothing is taken. -/
  | notAhead (a : Expr R)

namespace Expr

variable {R : Type}

instance : Coe String (Expr R) := ⟨fun word => .text word.toList⟩

instance : Coe R (Expr R) := ⟨.rule⟩

/-- Nothing, which every text starts with. -/
def nothing : Expr R := .text []

/-- The start of the text. Only the entry rules of a grammar ask for it, as
their first part, and they are only ever tried at the start. -/
def start : Expr R := nothing

/-- One after the other. -/
def seq : List (Expr R) → Expr R
  | [] => nothing
  | [a] => a
  | a :: b :: rest => .both a (seq (b :: rest))

/-- The first that matches. -/
def choice : List (Expr R) → Expr R
  | [] => .notAhead nothing
  | [a] => a
  | a :: b :: rest => .either a (choice (b :: rest))

/-- The first of several words. -/
def oneOf (words : List String) : Expr R := choice (words.map fun w => .text w.toList)

/-- Once, and then as often as it matches. -/
def plus (a : Expr R) : Expr R := .both a (.star a)

/-- Any character. -/
def any : Expr R := .char fun _ => true

/-- The end of a line. -/
def newline : Expr R := choice ["\n", "\r\n", "\r"]

/-- Any character at which the expression does not match. -/
def butNot (a : Expr R) : Expr R := .both (.notAhead a) any

end Expr

end FeatureTree
