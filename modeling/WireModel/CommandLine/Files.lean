import WireModel.Emission.Log
import WireModel.Failure
import WireModel.Json.Parser
import WireModel.Text.Units

/-!
# Paths and files

A path is the list of its components from the root. A file tree holds the contents of files by
their paths. A directory is there if a file is below it, if it leads to the working directory, or
if it is listed because it may be empty.
-/

namespace WireModel.CommandLine

abbrev Path := List String

namespace Path

/-- Goes along one component: `.` and nothing stay, `..` goes up. -/
def step (path : Path) (component : String) : Path :=
  if component = "" ∨ component = "." then path
  else if component = ".." then path.dropLast
  else path ++ [component]

/-- The components of a text. -/
def components (s : String) : List String := (s.toList.splitOn '/').map String.ofList

/-- The path that a text means, seen from `base`. -/
def resolve (base : Path) (s : String) : Path :=
  (components s).foldl step (if s.startsWith "/" then [] else base)

def text (path : Path) : String := "/" ++ "/".intercalate path

/-- The paths that lead to a path, from the root on. -/
def ancestors (path : Path) : List Path := (List.range path.length).map fun n => path.take n

end Path

/-- A place that a text names. A text that ends in a slash names a directory, and no file is found
there. -/
structure Location where
  path : Path
  isDirectory : Bool := false
  deriving DecidableEq, Repr

namespace Location

/-- The place that a text names below a directory. -/
def below (base : Path) (s : String) : Location :=
  ⟨(Path.components s).foldl Path.step base, s.endsWith "/"⟩

def text (l : Location) : String :=
  if l.isDirectory && !l.path.isEmpty then l.path.text ++ "/" else l.path.text

end Location

structure FileTree where
  /-- The directory that relative paths are seen from. -/
  workingDirectory : Path
  files : List (Path × String)
  /-- Directories that are there even if no file is below them. -/
  directories : List Path := []
  deriving DecidableEq, Repr

namespace FileTree

/-- The content of a file. -/
def read? (tree : FileTree) (path : Path) : Option String := tree.files.lookup path

def isFile (tree : FileTree) (path : Path) : Bool := (tree.read? path).isSome

def isDirectory (tree : FileTree) (path : Path) : Bool :=
  path.isPrefixOf tree.workingDirectory || tree.directories.any path.isPrefixOf
    || tree.files.any fun f => path.isPrefixOf f.1 && f.1 != path

/-- The tree with a file that has a new content. -/
def write (tree : FileTree) (path : Path) (content : String) : FileTree :=
  if tree.isFile path then
    { tree with files := tree.files.map fun f => if f.1 == path then (path, content) else f }
  else { tree with files := tree.files ++ [(path, content)] }

/-- The files below a directory, by their paths relative to it, in the order of these. -/
def below? (tree : FileTree) (dir : Path) : Option (List (String × String)) :=
  if tree.isDirectory dir then
    let inside := tree.files.filter fun f => dir.isPrefixOf f.1 && f.1 != dir
    let named := inside.map fun f => ("/".intercalate (f.1.drop dir.length), f.2)
    some (named.mergeSort fun a b => Text.le a.1 b.1)
  else none

/-- Why a file cannot be written: something that is no directory is in the way, or the file is
a directory itself. -/
def obstacle? (tree : FileTree) (path : Path) : Option String :=
  let dir := path.dropLast
  if tree.isFile dir then some ("EEXIST: file already exists, mkdir '" ++ Path.text dir ++ "'")
  else if (Path.ancestors dir).any tree.isFile then
    some ("ENOTDIR: not a directory, mkdir '" ++ Path.text dir ++ "'")
  else if tree.isDirectory path then
    some ("EISDIR: illegal operation on a directory, open '" ++ Path.text path ++ "'")
  else none

/-- The document in a file. -/
def readModel (tree : FileTree) (place : Location) : Except Failure Json :=
  let file := place.text
  match if place.isDirectory then none else tree.read? place.path with
  | none => .error (.input ("Cannot read the meta-model file " ++ file) (some file))
  | some text =>
    match Json.parse? text with
    | some value => .ok value
    | none =>
      .error (.input ("The meta-model file " ++ file ++ " is not valid JSON: malformed")
        (some file))

/-- The snippets in a directory. -/
def readSnippets (tree : FileTree) (place : Location) : Except Failure Snippets :=
  match tree.below? place.path with
  | some snippets => .ok snippets
  | none =>
    .error (.input ("Could not read the snippets directory " ++ place.text) (some place.text))

end FileTree
end WireModel.CommandLine
