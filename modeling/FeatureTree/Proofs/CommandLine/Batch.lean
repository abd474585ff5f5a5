import FeatureTree.CommandLine.Run
import FeatureTree.Proofs.Adapter.Stages
import FeatureTree.Proofs.CommandLine.Output
import FeatureTree.Proofs.FileTree.Walk

/-!
# What a batch reports

A batch sorts the files below a directory by what their names say: those without
a language are passed over, those whose language lacks the production are
counted, and the others are read and printed. Both the snippets and the count
come from one list of files, those with a language in the order of a walk
(`filterMap_snippet?`, `countP_skipped`), so nothing is lost between them.

Reading one of them is the command `parse` on its path, and the mark in front of its
line says how that command ends (`prefix_line_iff`), on which no other file has an
influence (`runCommand_congr`).

A file is meant to take one line. Its path and the name of its root are printed as they
are, and the name of an operator is the piece of the text that it was read from, with any
line end between `operator` and its sign. So a report has one line for each file exactly
if these have no line ends (`IsReport.lines`), and there is a file that takes two
(`not_oneLineEach_operator`).
-/

namespace FeatureTree.CommandLine

/-- A file whose extension names a language. -/
structure SourceFile where
  path : String
  language : Language
  deriving DecidableEq, Repr

namespace SourceFile

/-- The file that a row of names leads to from a directory, if its extension names
a language. -/
def ofNames? (directory : String) (names : List String) : Option SourceFile :=
  (languageOf? (joined directory names)).map fun language => ⟨joined directory names, language⟩

/-- What the file is read as: the production asked for, or else any member. -/
def target (production : Option Production) (f : SourceFile) : Target :=
  ⟨f.language, production.getD f.language.memberProduction⟩

/-- The file as a snippet. -/
def snippet (production : Option Production) (f : SourceFile) : Snippet :=
  ⟨.file f.path, f.target production⟩

/-- The command that reads the file alone. -/
def command (production : Option Production) (json : Bool) (f : SourceFile) : Command :=
  .parse f.path (some f.language) (f.target production).production false json false

/-- The outcome of reading the file. -/
def outcome (files : FileSystem) (config : Config) (production : Option Production)
    (f : SourceFile) : Outcome :=
  ((Adapter.ofConfig config : Adapter Empty).parse files (f.snippet production) none).outcome

/-- The tree of the file, if it can be read. -/
def tree? (files : FileSystem) (config : Config) (production : Option Production)
    (f : SourceFile) : Option Node := (f.outcome files config production).toOption

variable {files files' : FileSystem} {colours json : Bool} {config : Config}
  {production : Option Production} {f : SourceFile} {n : Node}

theorem runCommand_command :
    runCommand files colours config (f.command production json) =
      match f.outcome files config production with
      | .ok node => .success (showNode json node)
      | .error rejection => .failure 1 (.rejected rejection) := rfl

theorem isSome_tree?_iff :
    (f.tree? files config production).isSome = true ↔
      (runCommand files colours config (f.command production json)).code = 0 := by
  rw [runCommand_command, tree?]
  cases f.outcome files config production with
  | error rejection => exact ⟨nofun, nofun⟩
  | ok node => exact ⟨fun _ => rfl, fun _ => rfl⟩

theorem isSome_tree?_eq_false_iff :
    (f.tree? files config production).isSome = false ↔
      (runCommand files colours config (f.command production json)).code = 1 := by
  rw [runCommand_command, tree?]
  cases f.outcome files config production with
  | error rejection => exact ⟨fun _ => rfl, fun _ => rfl⟩
  | ok node => exact ⟨nofun, nofun⟩

/-- What is printed for the file. -/
def line (files : FileSystem) (colours : Bool) (config : Config) (production : Option Production)
    (f : SourceFile) : String :=
  fileLine colours f.path (f.tree? files config production)

/-- The mark in front of the line of a file says how the command ends that reads it alone. -/
theorem prefix_line_iff :
    ((mark colours true).toList <+: (f.line files colours config production).toList ↔
      (runCommand files colours config (f.command production json)).code = 0) ∧
    ((mark colours false).toList <+: (f.line files colours config production).toList ↔
      (runCommand files colours config (f.command production json)).code = 1) :=
  ⟨mark_prefix_iff.trans isSome_tree?_iff, mark_prefix_iff.trans isSome_tree?_eq_false_iff⟩

/-- Neither the path of the file nor the name of its root has a line end. -/
def HasOneLine (files : FileSystem) (config : Config) (production : Option Production)
    (f : SourceFile) : Prop :=
  Text.lineEnds f.path = 0 ∧ nameEnds (f.tree? files config production) = 0

/-- A file is read by its own text, whatever the other files contain. -/
theorem runCommand_congr (h : files.readText f.path = files'.readText f.path) :
    runCommand files colours config (f.command production json) =
      runCommand files' colours config (f.command production json) := by
  have hcontent : (f.snippet production).content.read files =
      (f.snippet production).content.read files' := h
  rw [runCommand_command, runCommand_command, outcome, outcome, Adapter.parse_eq,
    Adapter.parse_eq, hcontent]

end SourceFile

open SourceFile

/-! ## The files of a batch -/

/-- The files below a tree at a directory whose extensions name a language, in the
order of a walk. -/
def sourceFiles (directory : String) (t : FileTree) : List SourceFile :=
  t.walk.filterMap (ofNames? directory)

/-- The language of the file has what it is read as. -/
def SourceFile.isRead (production : Option Production) (f : SourceFile) : Bool :=
  (f.target production).isSupported

section Entries

variable (directory : String) (production : Option Production) (rows : List (List String))

theorem entryOf_joined (names : List String) :
    entryOf production (joined directory names) =
      match ofNames? directory names with
      | none => .ignored
      | some f => if f.isRead production then .read (f.snippet production) else .skipped := by
  rw [entryOf, ofNames?]
  cases languageOf? (joined directory names) <;> rfl

/-- The snippets of a batch are the files that are read. -/
theorem filterMap_snippet? :
    (rows.map fun names => entryOf production (joined directory names)).filterMap Entry.snippet? =
      ((rows.filterMap (ofNames? directory)).filter (isRead production)).map
        (snippet production) := by
  induction rows with
  | nil => rfl
  | cons names rows ih =>
      rw [List.map_cons, entryOf_joined]
      cases hfile : ofNames? directory names with
      | none =>
          rw [List.filterMap_cons_none rfl, ih, List.filterMap_cons_none hfile]
      | some f =>
          rw [List.filterMap_cons_some hfile]
          dsimp only
          by_cases hread : f.isRead production = true
          · rw [if_pos hread, List.filter_cons_of_pos hread, List.map_cons, ← ih]
            rfl
          · rw [if_neg hread, List.filter_cons_of_neg hread, ← ih]
            rfl

/-- The others of these files are skipped. -/
theorem countP_skipped :
    (rows.map fun names => entryOf production (joined directory names)).countP (· == .skipped) =
      (rows.filterMap (ofNames? directory)).countP (!isRead production ·) := by
  induction rows with
  | nil => rfl
  | cons names rows ih =>
      rw [List.map_cons, entryOf_joined, List.countP_cons, ih]
      cases hfile : ofNames? directory names with
      | none => rw [List.filterMap_cons_none hfile]; rfl
      | some f =>
          rw [List.filterMap_cons_some hfile, List.countP_cons]
          by_cases hread : f.isRead production = true <;> simp [hread]

end Entries

/-! ## The report -/

section Report

variable (files : FileSystem) (colours : Bool) (config : Config) (directory : String)
  (production : Option Production) (t : FileTree)

/-- The files of a batch that are read, in the order of a walk. -/
def readFiles : List SourceFile := (sourceFiles directory t).filter (isRead production)

/-- How many files are read with success. -/
def passed : Nat :=
  (readFiles directory production t).countP fun f => (f.tree? files config production).isSome

/-- How many files are read without success. -/
def failed : Nat :=
  (readFiles directory production t).countP fun f => (f.tree? files config production).isNone

/-- How many files have a language that lacks the production. -/
def skipped : Nat := (sourceFiles directory t).countP (!isRead production ·)

/-- What is printed, text by text: each file that is read, in the order of a walk, and the
summary. -/
def reportLines : List String :=
  (readFiles directory production t).map (line files colours config production) ++
    summaryLines colours (passed files config directory production t)
      (failed files config directory production t) (skipped directory production t)

/-- Besides the summary there is one line for each file that is read. -/
def OneLineEach (r : Result) : Prop :=
  Text.lineEnds r.output = (readFiles directory production t).length +
    if skipped directory production t = 0 then 4 else 5

/-- The result of a batch is a report on the files below a tree at its directory. -/
structure IsReport (r : Result) : Prop where
  /-- The walk meets each file, once, in the order of the names. -/
  walk : t.walk.Pairwise (· < ·) ∧
    ∀ names, names ∈ t.walk ↔ ∃ content, t.at? names = some (.file content)
  /-- Each file that is read is printed, and then the summary. -/
  output : r.output = printLines (reportLines files colours config directory production t) ++
    summaryEnd colours (skipped directory production t)
  /-- Each file takes one line, exactly if no path and no name has a line end. -/
  lines : OneLineEach directory production t r ↔
    ∀ f ∈ readFiles directory production t, f.HasOneLine files config production
  total : passed files config directory production t +
    failed files config directory production t + skipped directory production t =
      (sourceFiles directory t).length
  /-- The line of a file says success if the command does that reads it alone, and failure if
  that does. -/
  success : ∀ f ∈ readFiles directory production t, ∀ json,
    ((mark colours true).toList <+: (f.line files colours config production).toList ↔
      (runCommand files colours config (f.command production json)).code = 0) ∧
    ((mark colours false).toList <+: (f.line files colours config production).toList ↔
      (runCommand files colours config (f.command production json)).code = 1)
  /-- What other files contain has no influence on that. -/
  alone : ∀ f ∈ readFiles directory production t, ∀ other : FileSystem,
    files.readText f.path = other.readText f.path → ∀ json,
      runCommand files colours config (f.command production json) =
        runCommand other colours config (f.command production json)
  code : r.code = if failed files config directory production t = 0 then 0 else 1

theorem passed_add_failed :
    passed files config directory production t + failed files config directory production t =
      (readFiles directory production t).length := by
  rw [passed, failed, List.length_eq_countP_add_countP fun f : SourceFile =>
    (f.tree? files config production).isSome]
  simp only [Bool.not_eq_true, Option.isSome_eq_false_iff, Bool.decide_eq_true]

theorem length_readFiles_add_skipped :
    (readFiles directory production t).length + skipped directory production t =
      (sourceFiles directory t).length := by
  rw [readFiles, skipped, ← List.countP_eq_length_filter]
  have h := List.length_eq_countP_add_countP (isRead production) (l := sourceFiles directory t)
  simp only [Bool.not_eq_true, Bool.decide_eq_false] at h
  exact h.symm

/-- The rejections among the outcomes are those of the files that failed. -/
theorem length_rejections :
    (((readFiles directory production t).map fun f =>
        (f.path, f.outcome files config production)).filterMap fun (_, outcome) =>
          match outcome with
          | .error rejection => some rejection
          | .ok _ => none).length = failed files config directory production t := by
  rw [List.length_filterMap_eq_countP, List.countP_map, failed]
  refine List.countP_congr fun f _ => ?_
  rw [Function.comp_apply, tree?]
  cases f.outcome files config production <;> simp [Except.toOption]

/-- The line ends that are printed are one for each file that is read, those of the summary,
and the ones in paths and names. -/
theorem lineEnds_report :
    Text.lineEnds (printLines (reportLines files colours config directory production t) ++
        summaryEnd colours (skipped directory production t)) =
      (readFiles directory production t).length +
        ((readFiles directory production t).map fun f =>
          Text.lineEnds f.path + nameEnds (f.tree? files config production)).sum +
        if skipped directory production t = 0 then 4 else 5 := by
  have hfiles : (readFiles directory production t).map
      (fun f => Text.lineEnds (f.line files colours config production)) =
        (readFiles directory production t).map fun f =>
          Text.lineEnds f.path + nameEnds (f.tree? files config production) :=
    List.map_congr_left fun f _ => lineEnds_fileLine colours f.path _
  rw [reportLines, printLines, List.map_append, String.join_append, String.append_assoc,
    Text.lineEnds_append, ← printLines, ← printLines, lineEnds_summary, printLines,
    Text.lineEnds_join_lines, List.length_map, List.map_map]
  exact congrArg (_ + List.sum · + _) hfiles

theorem oneLineEach_iff {r : Result}
    (h : r.output = printLines (reportLines files colours config directory production t) ++
      summaryEnd colours (skipped directory production t)) :
    OneLineEach directory production t r ↔
      ∀ f ∈ readFiles directory production t, f.HasOneLine files config production := by
  rw [OneLineEach, h, lineEnds_report]
  have hcount : ((readFiles directory production t).map fun f =>
      Text.lineEnds f.path + nameEnds (f.tree? files config production)).sum = 0 ↔ _ :=
    List.sum_eq_zero_iff_forall_eq_nat
  simp only [List.forall_mem_map, Nat.add_eq_zero_iff] at hcount
  exact Iff.trans (by omega) hcount

/-- A batch goes through the files that are read. -/
theorem runBatch_readFiles (ht : t.Distinct)
    (hlist : files.filesBelow? directory = some t.sortedFiles) :
    let r := runBatch files colours (Adapter.ofConfig config) directory production
    r.output = printLines (reportLines files colours config directory production t) ++
        summaryEnd colours (skipped directory production t) ∧
      r.code = if failed files config directory production t = 0 then 0 else 1 := by
  have hfailed := length_rejections files config directory production t
  have hpassed := passed_add_failed files config directory production t
  rw [runBatch, hlist, FileTree.sortedFiles_eq_walk ht]
  dsimp only
  rw [filterMap_snippet?, countP_skipped, List.map_map (f := snippet production)]
  change String.join (List.map _ ((readFiles directory production t).map fun f =>
    (f.path, f.outcome files config production))) ++ showSummary colours
      (((readFiles directory production t).map fun f =>
        (f.path, f.outcome files config production)).length - _) _ _ = _ ∧ _
  rw [List.map_map, List.length_map, ← hpassed]
  refine ⟨?_, congrArg (fun n => if n = 0 then 0 else 1) hfailed⟩
  have hsuccess := congrArg (passed files config directory production t +
    failed files config directory production t - ·) hfailed
  rw [reportLines, printLines, List.map_append, String.join_append, String.append_assoc,
    List.map_map]
  refine congr (congrArg (· ++ ·) (congrArg String.join (List.map_congr_left fun f _ => ?_))) ?_
  · exact showFile_eq colours f.path _
  · rw [← printLines, ← showSummary_eq]
    exact congrFun (congr (congrArg (showSummary colours)
      (hsuccess.trans (Nat.add_sub_cancel _ _))) hfailed) _

/-- A batch at no directory reports that, and reads nothing. At a directory it reports
on each file below it, as the command does that reads the file alone. -/
theorem runCommand_batch :
    (files.filesBelow? directory = none →
      runCommand files colours config (.batch directory production) =
        .failure 2 (.notADirectory directory)) ∧
    ∀ t : FileTree, t.Distinct → files.filesBelow? directory = some t.sortedFiles →
      IsReport files colours config directory production t
        (runCommand files colours config (.batch directory production)) := by
  refine ⟨fun hnone => ?_, fun t ht hlist => ?_⟩
  · rw [runCommand, runBatch, hnone]
    rfl
  · obtain ⟨houtput, hcode⟩ :=
      runBatch_readFiles files colours config directory production t ht hlist
    refine ⟨⟨FileTree.pairwise_walk ht, FileTree.mem_walk_iff ht⟩, houtput,
      oneLineEach_iff files colours config directory production t houtput, ?_,
      fun f _ json => prefix_line_iff, fun f _ other h json => runCommand_congr h, hcode⟩
    rw [passed_add_failed, length_readFiles_add_skipped]

/-- A directory with a file that is read, one that is none of its language, one without the
production, one without a language, and one that is no text in a directory named like a
file. -/
theorem runCommand_batch_mixed :
    let t : FileTree := .directory [("b.java", .file "int a;".toUTF8),
      ("a.java", .file "int".toUTF8), ("c.c", .file "int a;".toUTF8),
      ("notes.txt", .file "".toUTF8), ("x.java", .directory [("y.cs", .file ⟨#[200]⟩)])]
    let root : FileTree := .directory [("d", t)]
    let r := runCommand root.system false .default (.batch "d" (some .field))
    (root.system.filesBelow? "e" = none ∧
      runCommand root.system false .default (.batch "e" none) = .failure 2 (.notADirectory "e")) ∧
    t.Distinct ∧ root.system.filesBelow? "d" = some t.sortedFiles ∧
      IsReport root.system false .default "d" (some .field) t r ∧
      r.output = "✗ d/a.java\n✓ d/b.java (field a)\n✗ d/x.java/y.cs\n\n" ++
        "Batch Summary\n  parsed:  1\n  failed:  2\n  skipped: 1\n" := by
  intro t root r
  have hmissing : root.lookup "e" = .error .notFound :=
    (FileTree.lookup_name (by decide +kernel) (by decide +kernel)).trans rfl
  have hdirectory : root.lookup "d" = .ok t :=
    (FileTree.lookup_name (by decide +kernel) (by decide +kernel)).trans rfl
  have hnone : root.system.filesBelow? "e" = none := FileTree.filesBelow?_error hmissing
  have hlist := FileTree.filesBelow?_directory hdirectory
  have ht : t.Distinct := by simp [t, FileTree.Distinct, FileTree.DistinctBelow]
  have hreport := (runCommand_batch root.system false .default "d" (some .field)).2 t ht hlist
  have hwalk : t.walk = [["a.java"], ["b.java"], ["c.c"], ["notes.txt"], ["x.java", "y.cs"]] := by
    simp [t, FileTree.walk, FileTree.walks, List.mergeSort, List.MergeSort.Internal.splitInTwo]
  have hfiles : sourceFiles "d" t = [⟨"d/a.java", .java⟩, ⟨"d/b.java", .java⟩, ⟨"d/c.c", .c⟩,
      ⟨"d/x.java/y.cs", .csharp⟩] := by
    rw [sourceFiles, hwalk]
    decide +kernel
  refine ⟨⟨hnone, (runCommand_batch _ _ _ _ none).1 hnone⟩, ht, hlist, hreport, ?_⟩
  rw [hreport.output, reportLines, passed, failed, skipped, readFiles, hfiles]
  decide +kernel

/-- The name of an operator with a line end behind `operator` takes a second line. -/
theorem not_oneLineEach_operator :
    let t : FileTree :=
      .directory [("a.cs", .file "public static bool operator\n==(A a, B b);".toUTF8)]
    let root : FileTree := .directory [("d", t)]
    let r := runCommand root.system false .default (.batch "d" none)
    r.output = "✓ d/a.cs (method operator\n==)\n\n" ++
        "Batch Summary\n  parsed:  1\n  failed:  0\n" ∧
      readFiles "d" none t = [⟨"d/a.cs", .csharp⟩] ∧ ¬ OneLineEach "d" none t r := by
  intro t root r
  have hdirectory : root.lookup "d" = .ok t :=
    (FileTree.lookup_name (by decide +kernel) (by decide +kernel)).trans rfl
  have hlist := FileTree.filesBelow?_directory hdirectory
  have ht : t.Distinct := by simp [t, FileTree.Distinct, FileTree.DistinctBelow]
  obtain ⟨houtput, -⟩ := runBatch_readFiles root.system false .default "d" none t ht hlist
  have hwalk : t.walk = [["a.cs"]] := by simp [t, FileTree.walk, FileTree.walks]
  have hfiles : sourceFiles "d" t = [⟨"d/a.cs", .csharp⟩] := by
    rw [sourceFiles, hwalk]
    decide +kernel
  have hread : readFiles "d" none t = [⟨"d/a.cs", .csharp⟩] := by
    rw [readFiles, hfiles]
    rfl
  have hskipped : skipped "d" none t = 0 := by
    rw [skipped, hfiles]
    rfl
  have htext : r.output = "✓ d/a.cs (method operator\n==)\n\n" ++
      "Batch Summary\n  parsed:  1\n  failed:  0\n" := by
    show (runBatch _ _ _ _ _).output = _
    rw [houtput, reportLines, passed, failed, hread, hskipped]
    decide +kernel
  refine ⟨htext, hread, ?_⟩
  rw [OneLineEach, htext, hread, hskipped]
  decide

end Report

end FeatureTree.CommandLine
