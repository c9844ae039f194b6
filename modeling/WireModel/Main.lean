import WireModel.CommandLine.Run

/-!
# The program

The outer layer of the command line: it takes in the environment and the files that a command
names, runs it, and puts the outcome into effect. Everything is decided by `CommandLine.run`.
-/

namespace WireModel.CommandLine

/-- What is found at a path. -/
inductive Found where
  | nothing
  | file (content : String)
  | directory (names : List String)

/-- Looks at a path. What cannot be read counts as nothing. -/
def look (path : Path) : IO Found := do
  try
    let place ← IO.FS.realPath path.text
    if ← place.isDir then
      return .directory ((← place.readDir).toList.map fun entry => entry.fileName)
    else
      return .file (← IO.FS.readFile place)
  catch _ => return .nothing

/-- Takes in a file, or a directory with everything below it. -/
partial def takeIn (tree : FileTree) (path : Path) : IO FileTree := do
  match ← look path with
  | .nothing => return tree
  | .file content => return tree.write path content
  | .directory names =>
    names.foldlM (fun tree name => takeIn tree (path ++ [name]))
      { tree with directories := path :: tree.directories }

/-- Takes in what may be in the way of writing into a directory: the file or directory at each
place that leads to it, and its own entries. -/
def takeInOutput (tree : FileTree) (dir : Path) : IO FileTree := do
  let entries ← match ← look dir with
    | .directory names => pure (names.map fun name => dir ++ [name])
    | _ => pure []
  (Path.ancestors dir ++ dir :: entries).foldlM
    (fun tree path => do
      match ← look path with
      | .nothing => return tree
      | .file content => return tree.write path content
      | .directory _ => return { tree with directories := path :: tree.directories })
    tree

/-- Takes in what flags name. -/
def takeInFlags (tree : FileTree) (f : Flags) : IO FileTree := do
  let resolve := Path.resolve tree.workingDirectory
  let tree ← (f.model.toList ++ f.snippets.toList).foldlM (fun t s => takeIn t (resolve s)) tree
  f.output.toList.foldlM (fun t s => takeInOutput t (resolve s)) tree

/-- The files that a command line is about. -/
def fileTree (arguments : List String) : IO FileTree := do
  let here := Path.resolve [] (← IO.currentDir).toString
  let tree : FileTree := { workingDirectory := here, files := [] }
  match Command.parse arguments with
  | .ok (.generate f) | .ok (.check f) => takeInFlags tree f
  | _ => return tree

/-- The environment of the program. Its texts of help are left empty. -/
def environment : IO Terminal.Environment := do
  return {
    noColor := ← IO.getEnv "NO_COLOR"
    forceColor := ← IO.getEnv "FORCE_COLOR"
    isProduction := (← IO.getEnv "NODE_ENV") == some "production" }

/-- Writes the files of a tree that another tree does not have. -/
def writeChanges (before after : FileTree) : IO Unit :=
  (after.files.filter fun f => !before.files.contains f).forM fun f => do
    IO.FS.createDirAll (Path.text f.1.dropLast)
    IO.FS.writeFile (Path.text f.1) f.2

end WireModel.CommandLine

open WireModel.CommandLine in
/-- Runs the program and ends with the exit status of the run. -/
def main (arguments : List String) : IO UInt32 := do
  let tree ← fileTree arguments
  let outcome := run (← environment) tree arguments
  writeChanges tree outcome.files
  (← IO.getStdout).putStr outcome.output
  (← IO.getStderr).putStr outcome.errors
  return UInt32.ofNat outcome.exitStatus
