import FeatureTree.CommandLine.Arguments
import FeatureTree.CommandLine.Output
import FeatureTree.Config.Load
import FeatureTree.Traversal.Reader

/-!
# Running a command

A run answers with an exit code, what it prints, and the problems that it
reports. The code is 0 on success, 1 if a snippet or an expression was
rejected, and 2 if the command line or the configuration is wrong. Nothing but
the arguments and the files has an influence.
-/

namespace FeatureTree.CommandLine

/-- A problem that a run reports. -/
inductive Problem
  /-- The configuration could not be loaded. -/
  | config (error : ConfigError)
  /-- A snippet or an expression was rejected. -/
  | rejected (rejection : Rejection)
  /-- The language of a file is not known from its name. -/
  | unknownLanguage (file : String)
  /-- A path names no directory. -/
  | notADirectory (path : String)
  deriving DecidableEq, Repr

namespace Problem

/-- The code of the diagnostic, if the problem is reported as one. -/
def code? : Problem → Option String
  | config error => some error.code
  | rejected rejection => some rejection.code
  | unknownLanguage _ | notADirectory _ => none

/-- The line that reports the problem, if it is no diagnostic. -/
def line? : Problem → Option String
  | unknownLanguage file =>
    some s!"Error: cannot infer the language of {file}; pass --language"
  | notADirectory path => some s!"Error: {path} is not a directory"
  | config _ | rejected _ => none

/-- The sentence that reports the problem. -/
def message : Problem → String
  | config error => error.message
  | rejected rejection => rejection.message
  | unknownLanguage file => s!"cannot infer the language of {file}; pass --language"
  | notADirectory path => s!"{path} is not a directory"

end Problem

/-- What a run comes to. -/
structure Result where
  code : Nat
  output : String
  problems : List Problem
  deriving DecidableEq, Repr

namespace Result

/-- A run that printed something and has nothing to report. -/
def success (output : String) : Result := ⟨0, output, []⟩

/-- A run that ended in a problem. -/
def failure (code : Nat) (problem : Problem) : Result := ⟨code, "", [problem]⟩

end Result

/-- The exit code for a wrong command line or configuration. -/
def usageCode : Nat := 2

/-- The last name in a path, if it is one. -/
def fileName? (path : String) : Option String :=
  match ((path.splitToList (· == '/')).filter fun part => part != "" && part != ".").getLast? with
  | some ".." => none
  | last => last

/-- What follows the last dot of a file's name. A dot in front of the name does
not count. -/
def extension? (path : String) : Option String :=
  (fileName? path).bind fun name =>
    let ending := name.toList.reverse.takeWhile (· != '.')
    if ending.length + 1 < name.length then some (String.ofList ending.reverse) else none

/-- The language of a file by its name. -/
def languageOf? (path : String) : Option Language :=
  (extension? path).bind Language.ofExtension?

/-- Runs `parse`. -/
def runParse (files : FileSystem) (adapter : Adapter Empty) (file : String)
    (language : Option Language) (production : Production) (json noValidate : Bool) : Result :=
  match language.or (languageOf? file) with
  | none => .failure usageCode (.unknownLanguage file)
  | some language =>
    let constraints := if noValidate then some .empty else none
    let snippet : Snippet := ⟨.file file, ⟨language, production⟩⟩
    match (adapter.parse files snippet constraints).outcome with
    | .ok node => .success (showNode json node)
    | .error rejection => .failure 1 (.rejected rejection)

/-- Runs `query`. -/
def runQuery (expression : String) (json : Bool) : Result :=
  match Traversal.Plan.ofString expression with
  | .ok plan => .success (showPlan json plan)
  | .error rejection => .failure 1 (.rejected rejection)

/-- A path below a directory. -/
def joined (directory : String) (names : List String) : String :=
  let base := if directory.endsWith "/" then directory else directory ++ "/"
  base ++ "/".intercalate names

/-- What a batch does with a file. -/
inductive Entry
  /-- Its name tells no language. -/
  | ignored
  /-- Its language does not have the production. -/
  | skipped
  /-- It is read. -/
  | read (snippet : Snippet)
  deriving DecidableEq, Repr

/-- What a batch does with a file: by its name it has a language, and it is read
as the production asked for, or else as any member. -/
def entryOf (production : Option Production) (path : String) : Entry :=
  match languageOf? path with
  | none => .ignored
  | some language =>
    let production := production.getD language.memberProduction
    if language.supports production then .read ⟨.file path, ⟨language, production⟩⟩
    else .skipped

/-- The snippet of an entry that is read. -/
def Entry.snippet? : Entry → Option Snippet
  | .read snippet => some snippet
  | _ => none

/-- Runs `batch`. A file that is rejected does not end the batch. -/
def runBatch (files : FileSystem) (colours : Bool) (adapter : Adapter Empty) (directory : String)
    (production : Option Production) : Result :=
  match files.filesBelow? directory with
  | none => .failure usageCode (.notADirectory directory)
  | some rows =>
    let entries := rows.map fun names => entryOf production (joined directory names)
    let outcomes := (entries.filterMap Entry.snippet?).map fun snippet =>
      (snippet.content.name, (adapter.parse files snippet none).outcome)
    let lines := outcomes.map fun (path, outcome) => showFile colours path outcome.toOption
    let rejections := outcomes.filterMap fun (_, outcome) =>
      match outcome with
      | .error rejection => some rejection
      | .ok _ => none
    let failed := rejections.length
    let summary := showSummary colours (outcomes.length - failed) failed
      (entries.countP (· == .skipped))
    ⟨if failed = 0 then 0 else 1, String.join lines ++ summary, rejections.map .rejected⟩

/-- Runs a command under a configuration. -/
def runCommand (files : FileSystem) (colours : Bool) (config : Config) : Command → Result
  | .parse file language production lenient json noValidate =>
    let adapter := Adapter.ofConfig config
    let adapter := if lenient then adapter.withStrict false else adapter
    runParse files adapter file language production json noValidate
  | .query expression json => runQuery expression json
  | .batch directory production =>
    runBatch files colours (Adapter.ofConfig config) directory production
  | .productions =>
    .success (showTargets (Adapter.ofConfig config : Adapter Empty).registry.targets)

/-- Runs an invocation, with the configuration that it names. -/
def runInvocation (files : FileSystem) (colours : Bool) (i : Invocation) : Result :=
  match i.config with
  | none => runCommand files colours .default i.command
  | some path =>
    match Config.load files path with
    | .error error => .failure usageCode (.config error)
    | .ok config => runCommand files colours config i.command

/-- The name and version of the program. -/
def versionLine : String := "fstparse 0.1.0\n"

/-- Runs a command line. A request for help succeeds, and the empty text stands for its own one,
which describes options and commands in sentences and is left out here. -/
def run (files : FileSystem) (colours : Bool) (args : List String) : Result :=
  match Arguments.ofList args with
  | .run invocation => runInvocation files colours invocation
  | .version => .success versionLine
  | .help => .success ""
  | .refused => ⟨usageCode, "", []⟩

end FeatureTree.CommandLine
