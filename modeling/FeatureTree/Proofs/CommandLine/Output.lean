import FeatureTree.CommandLine.Output
import FeatureTree.Proofs.Node.Printer

/-!
# What a batch prints

For each file there is a mark that says how it was read, the path, and for a tree the kind and
the name of its root (`showFile_eq`). All of this goes out as it is, and one line end is added.
Nothing but the path and the name can have a line end of its own, so it is these two that decide
whether a file takes one line (`lineEnds_fileLine`). The summary is four lines, or five if files
were skipped (`showSummary_eq`).
-/

namespace FeatureTree.CommandLine

/-- The mark of a file, with the colours that it has on a terminal that shows them. -/
def mark (colours success : Bool) : String :=
  if success then Style.green.switch colours ++ "✓" ++ Style.plain.switch colours
  else Style.red.switch colours ++ "✗" ++ Style.plain.switch colours

/-- The root of a tree: its kind, and its name if it has one. -/
def rootText (n : Node) : String :=
  " (" ++ n.kind.name ++ (n.name.map (" " ++ ·)).getD "" ++ ")"

/-- What is printed for a file, without the line end behind it. -/
def fileLine (colours : Bool) (path : String) (tree? : Option Node) : String :=
  mark colours tree?.isSome ++ " " ++ path ++ (tree?.map rootText).getD ""

/-- The lines of the summary. -/
def summaryLines (colours : Bool) (passed failed skipped : Nat) : List String :=
  ["", Style.bold.switch colours ++ "Batch Summary",
    Style.plain.switch colours ++ Style.green.switch colours ++ "  parsed:  " ++ toString passed,
    (if failed = 0 then Style.plain else Style.red).switch colours ++ "  failed:  " ++
      toString failed] ++
    if skipped = 0 then []
    else [Style.plain.switch colours ++ "  skipped: " ++ toString skipped]

/-- What switches the terminal back behind the summary, if its last line has not. -/
def summaryEnd (colours : Bool) (skipped : Nat) : String :=
  if skipped = 0 then Style.plain.switch colours else ""

/-- The texts as lines of their own. -/
def printLines (lines : List String) : String := String.join (lines.map (· ++ "\n"))

section

variable (colours : Bool) (path : String) (tree? : Option Node) (passed failed skipped : Nat)

theorem showFile_eq : showFile colours path tree? = fileLine colours path tree? ++ "\n" := by
  cases tree? with
  | none =>
      simp only [showFile, fileLine, mark, Option.isSome_none, Bool.false_eq_true, if_false,
        Option.map_none, Option.getD_none, String.append_assoc, String.empty_append]
      rfl
  | some n =>
      simp only [showFile, fileLine, mark, rootText, Option.isSome_some, if_true,
        Option.map_some, Option.getD_some, String.append_assoc]
      cases n.name <;> rfl

theorem showSummary_eq :
    showSummary colours passed failed skipped =
      printLines (summaryLines colours passed failed skipped) ++ summaryEnd colours skipped := by
  by_cases hskipped : skipped = 0 <;>
    simp only [showSummary, printLines, summaryLines, summaryEnd, hskipped, if_true, if_false,
      List.cons_append, List.nil_append, List.append_nil, List.map_cons, List.map_nil,
      String.join_cons, String.join_nil, String.append_assoc, String.empty_append,
      String.append_empty] <;>
    rfl

end

/-! ## Marks -/

theorem length_mark (colours success : Bool) :
    (mark colours success).toList.length = (mark colours true).toList.length := by
  cases colours <;> cases success <;> decide

theorem mark_injective {colours success success' : Bool}
    (h : (mark colours success).toList = (mark colours success').toList) :
    success = success' := by
  revert h
  cases colours <;> cases success <;> cases success' <;> decide

/-- The mark in front of a line says if there is a tree. -/
theorem mark_prefix_iff {colours success : Bool} {path : String} {tree? : Option Node} :
    (mark colours success).toList <+: (fileLine colours path tree?).toList ↔
      tree?.isSome = success := by
  have hmark : (mark colours tree?.isSome).toList <+: (fileLine colours path tree?).toList := by
    rw [fileLine, String.append_assoc, String.append_assoc, String.toList_append]
    exact List.prefix_append _ _
  constructor
  · intro h
    have hlength : (mark colours tree?.isSome).toList.length =
        (mark colours success).toList.length :=
      (length_mark _ _).trans (length_mark _ _).symm
    exact mark_injective
      ((List.prefix_of_prefix_length_le hmark h (Nat.le_of_eq hlength)).eq_of_length hlength)
  · rintro rfl
    exact hmark

/-! ## Ends of lines -/

open Text (lineEnds lineEnds_append lineEnds_repr)

theorem lineEnds_switch (colours : Bool) (style : Style) :
    lineEnds (style.switch colours) = 0 := by
  cases colours <;> cases style <;> rfl

theorem lineEnds_mark (colours success : Bool) : lineEnds (mark colours success) = 0 := by
  cases colours <;> cases success <;> rfl

/-- The line ends in the name of the root, if there is a tree with one. -/
def nameEnds (tree? : Option Node) : Nat := (tree?.map Node.nameEnds).getD 0

/-- All line ends of what is printed for a file are in its path and in the name. -/
theorem lineEnds_fileLine (colours : Bool) (path : String) (tree? : Option Node) :
    lineEnds (fileLine colours path tree?) = lineEnds path + nameEnds tree? := by
  have hblank : lineEnds " " = 0 := rfl
  have hopen : lineEnds " (" = 0 := rfl
  have hclose : lineEnds ")" = 0 := rfl
  cases tree? with
  | none => simp [fileLine, nameEnds, lineEnds_mark, hblank]
  | some n =>
      cases hname : n.name <;>
        simp [fileLine, rootText, nameEnds, Node.nameEnds, lineEnds_mark, Node.lineEnds_kind,
          hblank, hopen, hclose, hname]

/-- The summary takes a line for each of its lines. -/
theorem lineEnds_summary (colours : Bool) (passed failed skipped : Nat) :
    lineEnds (printLines (summaryLines colours passed failed skipped) ++
      summaryEnd colours skipped) = if skipped = 0 then 4 else 5 := by
  have htitle : lineEnds "Batch Summary" = 0 := rfl
  have hparsed : lineEnds "  parsed:  " = 0 := rfl
  have hfailed : lineEnds "  failed:  " = 0 := rfl
  have hskipped : lineEnds "  skipped: " = 0 := rfl
  rw [lineEnds_append, printLines, Text.lineEnds_join_lines]
  by_cases hnone : skipped = 0 <;>
    simp [summaryLines, summaryEnd, lineEnds_switch, htitle, hparsed, hfailed, hskipped, hnone]

end FeatureTree.CommandLine
