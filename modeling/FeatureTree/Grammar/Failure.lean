import FeatureTree.Grammar.Match

/-!
# Where a text stopped matching

When an entry rule fails, the place to report is the furthest one at which a
rule was still tried, and the report names the rules that were tried there:
those that should have matched, and those that matched but were forbidden to.

`trace` runs the same match as `Grammar.eval` and keeps this record. A rule
enters it when its own attempt is over, so that of rules nested at one place
the outer ones come last; an outer rule replaces the entries of the rules
inside it, unless there is exactly one such entry, which then says it better.
-/

namespace FeatureTree

/-- The furthest place at which rules were tried, and what was tried there. -/
structure Furthest (R : Type) where
  /-- The text from the furthest place on. -/
  rest : List Char
  /-- Rules that failed there. -/
  expected : List R
  /-- Rules that matched there but were not wanted. -/
  unexpected : List R

namespace Furthest

variable {R : Type}

/-- Number of rules on record at the place in front of a text. -/
def countAt (f : Furthest R) (s : List Char) : Nat :=
  if f.rest.length = s.length then f.expected.length + f.unexpected.length else 0

/-- Enters a rule that was tried in front of `s`. `before` is the record from
before its attempt, `negated` says that the rule was not wanted there. -/
def enter (before after : Furthest R) (r : R) (negated : Bool) (s : List Char) : Furthest R :=
  if after.countAt s = before.countAt s + 1 then after
  else if s.length < after.rest.length then
    if negated then ⟨s, [], [r]⟩ else ⟨s, [r], []⟩
  else if s.length = after.rest.length then
    let kept : Nat × Nat :=
      if before.rest.length = s.length then (before.expected.length, before.unexpected.length)
      else (0, 0)
    let expected := after.expected.take kept.1
    let unexpected := after.unexpected.take kept.2
    if negated then ⟨after.rest, expected, unexpected ++ [r]⟩
    else ⟨after.rest, expected ++ [r], unexpected⟩
  else after

end Furthest

namespace Grammar

variable {R : Type}

/-- A match that keeps the record: what is left, if it succeeds, and the record
either way. -/
abbrev Tracer (R : Type) := List Char → Furthest R → Option (List Char) × Furthest R

/-- Repeats a traced match, at most once for each character of the bound. The
attempt that ends a repetition is on record too, also at the end of the text. -/
def traceMany (step : Tracer R) : List Char → Tracer R
  | [], s, f => (some s, (step s f).2)
  | _ :: bound, s, f =>
    match step s f with
    | (none, f) => (some s, f)
    | (some s', f) => traceMany step bound s' f

/-- Matches an expression as `eval` does and keeps the record. `negated` holds
under an odd number of `notAhead`. -/
def trace (skip : List Char → List Char) (call : R → Layout → Bool → Tracer R) :
    Expr R → Layout → Bool → Tracer R
  | .text word, _, _, s, f => (Text.after? word s, f)
  | .char _, _, _, [], f => (none, f)
  | .char accepts, _, _, c :: s, f => (if accepts c then some s else none, f)
  | .rule r, l, negated, s, f => call r l negated s f
  | .both a b, l, negated, s, f =>
    match trace skip call a l negated s f with
    | (none, f) => (none, f)
    | (some s, f) => trace skip call b l negated (gap skip l s) f
  | .either a b, l, negated, s, f =>
    match trace skip call a l negated s f with
    | (none, f) => trace skip call b l negated s f
    | found => found
  | .opt a, l, negated, s, f =>
    match trace skip call a l negated s f with
    | (none, f) => (some s, f)
    | found => found
  | .star a, l, negated, s, f =>
    match trace skip call a l negated s f with
    | (none, f) => (some s, f)
    | (some s, f) => traceMany (fun t => trace skip call a l negated (gap skip l t)) s s f
  | .ahead a, l, negated, s, f =>
    match trace skip call a l negated s f with
    | (none, f) => (none, f)
    | (some _, f) => (some s, f)
  | .notAhead a, l, negated, s, f =>
    match trace skip call a l (!negated) s f with
    | (none, f) => (some s, f)
    | (some _, f) => (none, f)

/-- Matches a rule as `run` does and keeps the record. A rule is entered if it
failed where it was wanted or matched where it was not, and never from inside a
token. -/
def runTrace (g : Grammar R) : Nat → R → Layout → Bool → Tracer R
  | 0, _, _, _, _, f => (none, f)
  | depth + 1, r, l, negated, s, before =>
    match trace g.trivia.skip (g.runTrace depth) (g.body r) (l.inside (g.layout r)) negated s
        before with
    | (found, after) =>
      if found.isSome == negated && (l.around (g.layout r)).records then
        (found, before.enter after r negated s)
      else (found, after)

/-- The record of an entry rule's attempt at the start of a text. -/
def furthest (g : Grammar R) (entry : R) (s : List Char) : Furthest R :=
  (g.runTrace (g.depth s) entry .spaced false s ⟨s, [], []⟩).2

end Grammar

/-- The report of a failed match, with the rules by name. -/
structure Mismatch where
  /-- Byte offset of the furthest place. -/
  offset : Nat
  expected : List String
  unexpected : List String
  deriving DecidableEq, Repr

namespace Mismatch

/-- Names in a row: `a`, `a or b`, `a, b, or c`. -/
def enumerate : List String → String
  | [] => ""
  | [a] => a
  | [a, b] => a ++ " or " ++ b
  | names => ", ".intercalate (names.dropLast ++ ["or " ++ names.getLast?.getD ""])

/-- What was wrong at the furthest place. -/
def message (m : Mismatch) : String :=
  match m.unexpected, m.expected with
  | [], [] => "unknown parsing error"
  | [], expected => "expected " ++ enumerate expected
  | unexpected, [] => "unexpected " ++ enumerate unexpected
  | unexpected, expected =>
    "unexpected " ++ enumerate unexpected ++ "; expected " ++ enumerate expected

end Mismatch

/-- The report of an entry rule that did not match at the start of a text.
Rules come in order of declaration, each at most once. -/
def Grammar.mismatch {R : Type} [BEq R] (g : Grammar R) (label : R → String) (entry : R)
    (s : List Char) : Mismatch :=
  let furthest := g.furthest entry s
  { offset := Text.byteLength s - Text.byteLength furthest.rest
    expected := (g.rules.filter furthest.expected.contains).map label
    unexpected := (g.rules.filter furthest.unexpected.contains).map label }

end FeatureTree
