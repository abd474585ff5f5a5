import FeatureTree.Grammar.Expr
import FeatureTree.Grammar.Forest
import FeatureTree.Grammar.Trivia

/-!
# Matching a grammar

`eval` matches one expression, given how rules are matched. It is recursion on
the expression; a repetition is bounded by the text it starts on, since each
round takes at least one character.

Rules call each other, so matching a rule is recursion on how deeply calls may
nest. Between two calls at the same place no rule occurs twice, as none of the
grammars here calls a rule in front of which nothing was taken from within
itself. Hence `depth`, which is computed from the text, is never reached.
-/

namespace FeatureTree

/-- A grammar over the rules `R`. -/
structure Grammar (R : Type) where
  /-- The rules that an error message may name, in order of declaration. -/
  rules : List R
  layout : R → Layout
  body : R → Expr R
  trivia : Trivia

namespace Grammar

variable {R : Type}

/-- A way to take a piece off a text: what is left, and what was recorded. -/
abbrev Matcher (R : Type) := List Char → Option (List Char × Forest R)

/-- Takes pieces as long as the matcher succeeds, at most one for each
character of the bound. -/
def many (step : Matcher R) : List Char → List Char → List Char × Forest R
  | [], s => (s, .nil)
  | _ :: bound, s =>
    match step s with
    | none => (s, .nil)
    | some (s', f) =>
      let (rest, fs) := many step bound s'
      (rest, f ++ fs)

/-- What stands between two parts under a layout: blanks and comments, or
nothing. -/
def gap (skip : List Char → List Char) : Layout → List Char → List Char
  | .spaced, s => skip s
  | _, s => s

/-- Matches an expression, where `call` matches a rule. Between the rounds of a
repetition the gap is dropped only if another round follows; between two parts
of a sequence it is dropped even if the second part takes nothing. -/
@[simp] def eval (skip : List Char → List Char) (call : R → Layout → Matcher R) :
    Expr R → Layout → Matcher R
  | .text word, _, s => (Text.after? word s).map (·, .nil)
  | .char _, _, [] => none
  | .char accepts, _, c :: s => if accepts c then some (s, .nil) else none
  | .rule r, l, s => call r l s
  | .both a b, l, s =>
    match eval skip call a l s with
    | none => none
    | some (s₁, f) =>
      match eval skip call b l (gap skip l s₁) with
      | none => none
      | some (s₂, g) => some (s₂, f ++ g)
  | .either a b, l, s =>
    match eval skip call a l s with
    | none => eval skip call b l s
    | found => found
  | .opt a, l, s =>
    match eval skip call a l s with
    | none => some (s, .nil)
    | found => found
  | .star a, l, s =>
    match eval skip call a l s with
    | none => some (s, .nil)
    | some (s₁, f) =>
      let (rest, fs) := many (fun t => eval skip call a l (gap skip l t)) s₁ s₁
      some (rest, f ++ fs)
  | .ahead a, l, s =>
    match eval skip call a l s with
    | none => none
    | some _ => some (s, .nil)
  | .notAhead a, l, s =>
    match eval skip call a l s with
    | none => some (s, .nil)
    | some _ => none

/-- Matches a rule where calls may nest to a depth. -/
def run (g : Grammar R) : Nat → R → Layout → Matcher R
  | 0, _, _, _ => none
  | depth + 1, r, l, s =>
    match eval g.trivia.skip (g.run depth) (g.body r) (l.inside (g.layout r)) s with
    | none => none
    | some (rest, f) =>
      if (l.around (g.layout r)).records then some (rest, .cons r s rest f .nil)
      else some (rest, .nil)

/-- A depth that calls on a text do not reach. -/
def depth (g : Grammar R) (s : List Char) : Nat := (s.length + 1) * (g.rules.length + 1)

/-- Matches an entry rule at the start of a text: what is left, and the record
of the rule. -/
def parse (g : Grammar R) (entry : R) : Matcher R := fun s => g.run (g.depth s) entry .spaced s

end Grammar

end FeatureTree
