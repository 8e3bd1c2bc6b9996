import CodeMend.Command.Run

/-!
# CodeMend — the program

The command line on the files of a disk.
-/

namespace CodeMend

/-- The paths of the source files below a directory, from the root of the workspace; `parts` leads
from the root to the directory.  Links are not followed. -/
partial def sourcePaths (root : String) (parts : List String) : IO (List String) := do
  let directory ← IO.FS.realPath (pathOfParts (root :: parts))
  let mut paths := []
  for entry in ← directory.readDir do
    let parts := parts ++ [entry.fileName]
    match (← entry.path.symlinkMetadata).type with
    | .dir =>
      if !unsearchedNames.contains entry.fileName then paths := paths ++ (← sourcePaths root parts)
    | .file =>
      let path := pathOfParts parts
      if isSource path then paths := paths ++ [path]
    | _ => pure ()
  return paths

/-- What a path leads to, if it leads anywhere. -/
def typeOfPath? (path : String) : IO (Option IO.FS.FileType) :=
  try return some (← (← IO.FS.realPath path).metadata).type
  catch _ => return none

/-- The files with some paths below a root, as far as they are there. -/
def readFiles (root : String) (paths : List String) : IO Directory := do
  let mut directory := Directory.ofFiles []
  for path in paths do
    let file := pathOfParts [root, path]
    if (← typeOfPath? file) == some .file then
      directory := directory.put path (← IO.FS.readFile file)
  return directory

/-- The workspace on the disk whose root a path leads to. -/
def diskAccess (root : String) : FileAccess IO where
  sources := do
    if (← typeOfPath? root) == some .dir then
      return some (← readFiles root (← sourcePaths root []))
    else return none
  current := readFiles root
  write files := files.forM fun f => IO.FS.writeFile (pathOfParts [root, f.1]) f.2

end CodeMend

def main (arguments : List String) : IO UInt32 := do
  let program := (← IO.appPath).fileName.getD ""
  let completion ←
    try CodeMend.Command.run program arguments CodeMend.diskAccess
    catch e => pure (CodeMend.Command.complete (.error (.internal (toString e))))
  IO.print completion.output
  (← IO.getStdout).flush
  return completion.exitCode.toUInt32
