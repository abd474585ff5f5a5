import FeatureTree.CommandLine.Run

/-!
# The program

Takes a snapshot of the files that a command line is about, runs the command
line on it, and shows what the run comes to.
-/

namespace FeatureTree.CommandLine

/-- The failure to read that an error of the system stands for. -/
def readError : IO.Error → ReadError
  | .noFileOrDirectory .. => .notFound
  | .inappropriateType .. => .isADirectory
  | error => .other (toString error)

/-- Reads a file as text. -/
def readFile (path : String) : IO (Except ReadError String) := do
  try
    let here ← IO.currentDir
    if ← (here / path).isDir then return .error .isADirectory
    let bytes ← IO.FS.readBinFile path
    match String.fromUTF8? bytes with
    | some text => return .ok text
    | none => return .error .invalidText
  catch error => return .error (readError error)

/-- The files below a directory, each as the row of names that leads to it from
there. Links are not followed. -/
partial def filesBelow (path : String) : IO (List (List String)) := do
  let here ← IO.currentDir
  let mut rows := []
  for entry in ← (here / path).readDir do
    let next := path ++ "/" ++ entry.fileName
    match (← (here / next).symlinkMetadata).type with
    | .dir => rows := rows ++ (← filesBelow next).map (entry.fileName :: ·)
    | .file => rows := rows ++ [[entry.fileName]]
    | _ => pure ()
  return rows

/-- The paths of the files that a command reads, and the directory that it goes
through, with what is below it. -/
def subject (invocation : Invocation) :
    IO (List String × Option (String × List (List String))) := do
  let config := invocation.config.toList
  match invocation.command with
  | .parse file .. => return (file :: config, none)
  | .batch directory _ =>
    let here ← IO.currentDir
    if ← (here / directory).isDir then
      let rows := (← filesBelow directory).mergeSort fun a b => !decide (b < a)
      return (config ++ rows.map (joined directory), some (directory, rows))
    else return (config, none)
  | .query .. | .productions => return (config, none)

/-- The state of the files that a command line is about. -/
def snapshot (args : List String) : IO FileSystem := do
  match Arguments.ofList args with
  | .run invocation =>
    let (paths, listing) ← subject invocation
    let texts ← paths.mapM fun path => return (path, ← readFile path)
    return {
      readText := fun path => (texts.lookup path).getD (.error .notFound)
      filesBelow? := fun path => listing.bind fun (directory, rows) =>
        if directory == path then some rows else none }
  | _ => return ⟨fun _ => .error .notFound, fun _ => none⟩

/-- The terminal shows colours, as far as the environment tells. -/
def showsColours : IO Bool := do
  let terminal ← IO.getEnv "TERM"
  let refused ← IO.getEnv "NO_COLOR"
  return terminal.any (· != "dumb") && refused.isNone

/-- Shows a problem on standard error. -/
def report (problem : Problem) : IO Unit :=
  match problem.code? with
  | some code => IO.eprintln s!"{code}: {problem.message}"
  | none => IO.eprintln s!"Error: {problem.message}"

end FeatureTree.CommandLine

open FeatureTree.CommandLine in
/-- Runs the command line. -/
def main (args : List String) : IO UInt32 := do
  let result := run (← snapshot args) (← showsColours) args
  IO.print result.output
  result.problems.forM report
  return UInt32.ofNat result.code
