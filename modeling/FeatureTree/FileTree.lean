import FeatureTree.FileSystem

/-!
# Trees of files and directories

A directory with named entries, each a file with its bytes or a directory, is a
file system. Paths are looked up as on a Unix system: empty names and single
dots stay in a directory, two dots go back, and nothing goes on from a file.
-/

namespace FeatureTree

/-- A file or a directory. -/
inductive FileTree
  | file (content : ByteArray)
  | directory (entries : List (String × FileTree))

namespace FileTree

/-- A directory without entries. -/
def empty : FileTree := .directory []

/-- The entry of a name. -/
def child? (entries : List (String × FileTree)) (name : String) : Option FileTree :=
  (entries.find? (·.1 == name)).map (·.2)

/-- Follows the parts of a path. `above` holds the directories that lead to
where it stands, the nearest first. Nothing can be followed through a file. -/
def follow (above : List FileTree) (here : FileTree) : List String → Except ReadError FileTree
  | [] => .ok here
  | part :: parts =>
    match here with
    | .file _ => .error .notADirectory
    | .directory entries =>
      if part == "" || part == "." then follow above here parts
      else if part == ".." then
        match above with
        | [] => .error .notFound
        | parent :: above => follow above parent parts
      else
        match child? entries part with
        | none => .error .notFound
        | some next => follow (here :: above) next parts

/-- What a path names, seen from the directory at the top. -/
def lookup (root : FileTree) (path : String) : Except ReadError FileTree :=
  if path.isEmpty || path.startsWith "/" then .error .notFound
  else follow [] root ((path.splitToList (· == '/')))

/-- The text of the file that a path names. -/
def readText (root : FileTree) (path : String) : Except ReadError String :=
  match root.lookup path with
  | .error e => .error e
  | .ok (.directory _) => .error .isADirectory
  | .ok (.file content) =>
    match String.fromUTF8? content with
    | some text => .ok text
    | none => .error .invalidText

mutual

/-- The files below here, each as the row of names that leads to it. -/
def files : FileTree → List (List String)
  | .file _ => [[]]
  | .directory entries => filesIn entries

/-- The files below the entries of a directory. -/
def filesIn : List (String × FileTree) → List (List String)
  | [] => []
  | (name, t) :: rest => t.files.map (name :: ·) ++ filesIn rest

end

/-- The files below a directory in the order of their names: at each level
entries come by name, and what is below an entry comes in its place. -/
def sortedFiles (t : FileTree) : List (List String) :=
  t.files.mergeSort fun a b => !decide (b < a)

/-- The file system that has this tree as its working directory. -/
def system (root : FileTree) : FileSystem where
  readText := root.readText
  filesBelow? path :=
    match root.lookup path with
    | .ok (.directory entries) => some (sortedFiles (.directory entries))
    | _ => none

mutual

/-- Puts something into a tree at the end of a row of names, making the
directories on the way. What stood there before is replaced, except that a directory put in the
place of a directory changes nothing. -/
def insertAt (new : FileTree) : List String → FileTree → FileTree
  | [], old =>
    match new, old with
    | .directory [], .directory entries => .directory entries
    | _, _ => new
  | name :: names, .directory entries => .directory (insertInto new name names entries)
  | name :: names, .file _ => .directory (insertInto new name names [])

/-- Puts something below one entry of a directory. -/
def insertInto (new : FileTree) (name : String) (names : List String) :
    List (String × FileTree) → List (String × FileTree)
  | [] => [(name, insertAt new names empty)]
  | (n, t) :: rest =>
    if n == name then (n, insertAt new names t) :: rest
    else (n, t) :: insertInto new name names rest

end

/-- The tree with something put at the end of a row of names. -/
def insert (root : FileTree) (names : List String) (new : FileTree) : FileTree :=
  insertAt new names root

end FileTree

end FeatureTree
