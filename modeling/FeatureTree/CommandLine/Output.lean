import FeatureTree.Adapter
import FeatureTree.Node.Printer
import FeatureTree.Node.Value
import FeatureTree.Traversal.Value
import FeatureTree.Value.Json

/-!
# What the commands print

Trees and plans are printed as lines or as JSON. A batch prints one line for
each file and a summary. Where the terminal shows colours, marks and numbers
have them; each change of colour starts from the terminal's own.
-/

namespace FeatureTree.CommandLine

/-- A way to write on the terminal. -/
inductive Style
  | plain | bold | green | red
  deriving DecidableEq

namespace Style

/-- The characters that switch a terminal to a style. -/
def code : Style → String
  | .plain => "\x1b[0m"
  | .bold => "\x1b[0m\x1b[1m"
  | .green => "\x1b[0m\x1b[32m"
  | .red => "\x1b[0m\x1b[31m"

/-- Switches to a style, on a terminal that shows colours. -/
def switch (colours : Bool) (style : Style) : String := if colours then style.code else ""

end Style

/-- A tree, as lines or as JSON. -/
def showNode (json : Bool) (n : Node) : String :=
  if json then n.toValue.pretty ++ "\n" else n.pretty

/-- A plan, as an expression or as JSON. -/
def showPlan (json : Bool) (p : Traversal.Plan) : String :=
  if json then p.toValue.pretty ++ "\n" else p.toString ++ "\n"

/-- A text filled up with blanks to a width. -/
def padded (width : Nat) (text : String) : String :=
  text ++ String.ofList (List.replicate (width - text.length) ' ')

/-- The targets, one on a line. -/
def showTargets (targets : List Target) : String :=
  if targets.isEmpty then "  No productions registered.\n"
  else String.join (targets.map fun t =>
    "  " ++ padded 8 t.language.name ++ " " ++ t.production.name ++ "\n")

/-- The line of a file of a batch: a mark, the path, and the root of its tree. -/
def showFile (colours : Bool) (path : String) : Option Node → String
  | some n =>
    let name := match n.name with
      | some name => " " ++ name
      | none => ""
    Style.green.switch colours ++ "✓" ++ Style.plain.switch colours ++
      s!" {path} ({n.kind}{name})\n"
  | none => Style.red.switch colours ++ "✗" ++ Style.plain.switch colours ++ s!" {path}\n"

/-- The summary of a batch. -/
def showSummary (colours : Bool) (passed failed skipped : Nat) : String :=
  let style := Style.switch colours
  "\n" ++ style .bold ++ "Batch Summary\n" ++ style .plain ++
    style .green ++ s!"  parsed:  {passed}\n" ++
    style (if failed = 0 then .plain else .red) ++ s!"  failed:  {failed}\n" ++
    style .plain ++ (if skipped = 0 then "" else s!"  skipped: {skipped}\n")

end FeatureTree.CommandLine
