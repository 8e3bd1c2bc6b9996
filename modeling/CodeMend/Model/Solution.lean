import CodeMend.Grammar.Parse
import CodeMend.Model.Error
import CodeMend.Tree.Navigate

/-!
# CodeMend — solutions

A solution is the whole program at one point in time: its documents with their trees, and the files
that did not parse.  Fixes make new solutions.
-/

namespace CodeMend

/-- The number of a document, which it keeps from one solution to the next. -/
abbrev DocumentId := Nat

/-- A parsed source file. -/
structure Document where
  id : DocumentId
  /-- The path from the root of the workspace, with slashes between its parts. -/
  path : String
  tree : Tree
deriving Inhabited

namespace Document

def text (d : Document) : String := d.tree.source

/-- Parse the text of a document. -/
def parse (id : DocumentId) (path text : String) : Analysis Document :=
  match CodeMend.parse text with
  | .ok tree => .ok ⟨id, path, tree⟩
  | .error e => .error (.parse path e)

end Document

/-- A file that does not parse. -/
structure SkippedDocument where
  path : String
  error : ParseError
  text : String
deriving Repr

namespace SkippedDocument

def isWordPart (c : Char) : Bool := Unicode.isAlphanumeric c || c = '_'

/-- The name stands somewhere in the text between characters that are no part of a word.  `before`
is the character in front of the text, and occurrences do not overlap; `skip` characters still
belong to the last one. -/
def mentionsFrom (name : List Char) : Option Char → Nat → List Char → Bool
  | before, skip, [] => skip == 0 && name.isEmpty && !before.any isWordPart
  | before, skip, c :: cs =>
    match skip with
    | k + 1 => mentionsFrom name (some c) k cs
    | 0 =>
      match dropFront? name (c :: cs) with
      | some rest =>
        (!before.any isWordPart && !rest.head?.any isWordPart) ||
          mentionsFrom name (some c) (name.length - 1) cs
      | none => mentionsFrom name (some c) 0 cs

/-- The text holds the name as a whole word. -/
def mentions (d : SkippedDocument) (name : String) : Bool :=
  mentionsFrom name.toList none 0 d.text.toList

end SkippedDocument

/-- The whole program at one point in time. -/
structure Solution where
  documents : List Document
  skipped : List SkippedDocument
deriving Inhabited

namespace Solution

/-- Parse the given files one after the other; the documents are numbered from `id` on. -/
def parseAll (id : DocumentId) : List (String × String) → Analysis (List Document)
  | [] => .ok []
  | (path, text) :: rest => do
    let d ← Document.parse id path text
    return d :: (← parseAll (id + 1) rest)

/-- The solution of some files, all of which have to parse. -/
def ofSources (sources : List (String × String)) : Analysis Solution := do
  return ⟨← parseAll 0 sources, []⟩

/-- Add a file to a solution: as a document when it parses, and else as a skipped one. -/
def addFile (s : Solution) (file : String × String) : Solution :=
  match CodeMend.parse file.2 with
  | .ok tree => { s with documents := s.documents ++ [⟨s.documents.length, file.1, tree⟩] }
  | .error e => { s with skipped := s.skipped ++ [⟨file.1, e, file.2⟩] }

/-- The solution of some files, any of which may fail to parse. -/
def ofFiles (files : List (String × String)) : Solution :=
  files.foldl addFile ⟨[], []⟩

def size (s : Solution) : Nat := s.documents.length

def document? (s : Solution) (id : DocumentId) : Option Document :=
  s.documents.find? fun d => d.id == id

def document (s : Solution) (id : DocumentId) : Analysis Document :=
  match s.document? id with
  | some d => .ok d
  | none => .error (.unknownDocument id)

def documentByPath? (s : Solution) (path : String) : Option Document :=
  s.documents.find? fun d => d.path == path

/-- The solution in which one document has a new text. -/
def withText (s : Solution) (id : DocumentId) (text : String) : Analysis Solution := do
  let old ← s.document id
  let new ← Document.parse id old.path text
  return { s with documents := s.documents.map fun d => if d.id == id then new else d }

end Solution

end CodeMend
