import CodeMend.Model.Solution

/-!
# CodeMend — directories

A directory holds files by their paths, which are relative and have slashes between their parts.
The solution of a directory is made of its source files, in the order of the parts of their paths.

* **`isSource`** — which files are source files.
* **`Directory.solution`** — the solution that a directory holds.
* **`Directory.resolve?`**, **`Directory.below`** — the directory that a path leads to.
-/

namespace CodeMend

/-- The parts of a path. -/
def pathParts (path : String) : List String := (pieces '/' path.toList).map String.ofList

/-- The path with the given parts. -/
def pathOfParts (parts : List String) : String := "/".intercalate parts

/-- Directories whose files are never sources. -/
def unsearchedNames : List String := ["bin", "obj", ".git"]

/-- A name is that of a source file when it ends in `.cs` with something in front of it. -/
def isSourceName (name : String) : Bool :=
  match name.toList.reverse with
  | 's' :: 'c' :: '.' :: _ :: _ => true
  | _ => false

/-- The file is a source file, and every directory on the way to it is searched. -/
def isSource (path : String) : Bool :=
  let parts := pathParts path
  parts.getLast?.any isSourceName && !parts.dropLast.any unsearchedNames.contains

/-- Paths are ordered part by part. -/
def comparePaths (a b : String) : Ordering := compare (pathParts a) (pathParts b)

/-- The files of a directory: pairs of a path and a text, with no path twice. -/
structure Directory where
  files : List (String × String)
deriving Repr

namespace Directory

/-- The text of a file. -/
def get? (d : Directory) (path : String) : Option String :=
  (d.files.find? fun f => f.1 == path).map Prod.snd

/-- The directory without a file. -/
def erase (d : Directory) (path : String) : Directory :=
  ⟨d.files.filter fun f => f.1 != path⟩

/-- The directory in which a file has a text. -/
def put (d : Directory) (path text : String) : Directory :=
  ⟨(d.erase path).files ++ [(path, text)]⟩

/-- The directory in which files have new texts. -/
def putAll (d : Directory) (files : List (String × String)) : Directory :=
  files.foldl (fun d f => d.put f.1 f.2) d

/-- The directory of some files; of two with the same path the later one counts. -/
def ofFiles (files : List (String × String)) : Directory := putAll ⟨[]⟩ files

/-- All files, ordered by the text of their paths. -/
def listing (d : Directory) : List (String × String) :=
  sortStable (fun a b => compare a.1 b.1) d.files

/-- The source files, ordered by the parts of their paths. -/
def sources (d : Directory) : List (String × String) :=
  sortStable (fun a b => comparePaths a.1 b.1) (d.files.filter fun f => isSource f.1)

/-- The solution that the directory holds. -/
def solution (d : Directory) : Solution := Solution.ofFiles d.sources

/-- The rest of a path behind the parts of a directory's path. -/
def inside? (directory : List String) (path : String) : Option String :=
  let parts := pathParts path
  if directory.isPrefixOf parts && directory.length < parts.length then
    some (pathOfParts (parts.drop directory.length))
  else none

/-- The directory that the parts of a path lead to. -/
def below (d : Directory) (directory : List String) : Directory :=
  ⟨d.files.filterMap fun f => (inside? directory f.1).map fun path => (path, f.2)⟩

/-- One step of a path that starts in some directory; a directory is there when it holds a file. -/
def enter? (d : Directory) (directory : List String) (part : String) : Option (List String) :=
  if part = "" || part = "." then some directory
  else if part = ".." then
    if directory.isEmpty then none else some directory.dropLast
  else
    let next := directory ++ [part]
    if (d.below next).files.isEmpty then none else some next

/-- The parts of the directory that a path leads to, if it is there.  A path that leaves this
directory leads nowhere. -/
def resolve? (d : Directory) (path : String) : Option (List String) :=
  if path.startsWith "/" then none else (pathParts path).foldlM d.enter? []

end Directory

end CodeMend
