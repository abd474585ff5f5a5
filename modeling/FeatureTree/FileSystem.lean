/-!
# File systems

What this library asks of a file system: the text of the file that a path
names, and the files below the directory that a path names. Reading can fail in
a few ways, each with its own sentence.
-/

namespace FeatureTree

/-- Why a path could not be read as text. -/
inductive ReadError
  | notFound
  | notADirectory
  | isADirectory
  | invalidText
  /-- A failure that a file system outside this library reports in its own
  words. -/
  | other (message : String)
  deriving DecidableEq, Repr

/-- The sentence that reports a failure to read. -/
def ReadError.message : ReadError → String
  | notFound => "No such file or directory (os error 2)"
  | notADirectory => "Not a directory (os error 20)"
  | isADirectory => "Is a directory (os error 21)"
  | invalidText => "stream did not contain valid UTF-8"
  | other message => message

/-- The state of a file system. -/
structure FileSystem where
  /-- The text of the file that a path names. -/
  readText : String → Except ReadError String
  /-- The files below the directory that a path names, each as the row of names
  that leads to it, in depth-first order of names; nothing if the path names no
  directory. -/
  filesBelow? : String → Option (List (List String))

end FeatureTree
