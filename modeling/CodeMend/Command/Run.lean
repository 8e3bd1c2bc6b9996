import CodeMend.Command.Fix
import CodeMend.Command.Invocation
import CodeMend.Command.Summary

/-!
# CodeMend — running a command

A command reads its rules and its place, loads the workspace, works out its answer and writes the
files that a fix changes.  It reaches the files by what it is given, so the same steps serve files
on a disk and files in memory.

* **`Command.execute`** — the text that a command answers, or the error that it ends with.
* **`Command.run`** — a command line from its arguments to its exit code.
* **`Directory.access`** — files in memory as a workspace.
-/

namespace CodeMend

/-- How a command reaches the files of its workspace. -/
structure FileAccess (m : Type → Type) where
  /-- The source files; nothing when the root of the workspace is not there. -/
  sources : m (Option Directory)
  /-- The files with some paths, as they are now. -/
  current : List String → m Directory
  /-- Write files. -/
  write : List (String × String) → m Unit

/-- Files in memory as a workspace whose root a path leads to. -/
def Directory.access (root : String) : FileAccess (StateM Directory) where
  sources := do
    let d ← get
    return (d.resolve? root).map d.below
  current _ := do
    let d ← get
    return d.below ((d.resolve? root).getD [])
  write files := modify fun d =>
    let directory := (d.resolve? root).getD []
    d.putAll (files.map fun f => (pathOfParts (directory ++ pathParts f.1), f.2))

/-- The end of a command. -/
structure Completion where
  exitCode : Nat
  output : String
deriving DecidableEq, Repr

namespace OutputFormat

/-- A response in a format, when there is no diff to show. -/
def render (format : OutputFormat) (json : Json) (summary : String) : String :=
  match format with
  | .json => json.emit
  | .text | .diff => summary

/-- The response to a fix in a format. -/
def renderFix (format : OutputFormat) (r : FixResponse) : String :=
  match format with
  | .diff => r.diff
  | _ => format.render r.toJson r.summary

end OutputFormat

namespace Command

/-- The version of the program. -/
def versionNumber : String := "0.1.0"

variable {m : Type → Type} [Monad m]

/-- A result, among steps that reach files. -/
def settled {α : Type} (r : Result α) : ExceptT CommandError m α := ExceptT.mk (pure r)

/-- The solution of the workspace with a root. -/
def load (root : String) (files : FileAccess m) : ExceptT CommandError m Solution := do
  match ← files.sources with
  | some d => return d.solution
  | none => throw (.fileNotFound root)

/-- Write what a fix changes. -/
def commit (files : FileAccess m) (o : FixOutcome) : ExceptT CommandError m FixResponse := do
  let current ← files.current (o.changes.map DocumentChange.path)
  files.write (← settled (o.changes.mapM (fileToWrite current)))
  return o.writtenResponse

/-- The path to the root of the workspace. -/
def root (i : Invocation) : String := i.workspace.getD "."

/-- The text that a command answers.  `program` is the name that it goes by. -/
def execute (program : String) (i : Invocation) (files : FileAccess m) :
    ExceptT CommandError m String := do
  match i.request with
  | .version => return program ++ " " ++ versionNumber ++ "\n"
  | .rules => return i.format.render rules.toJson rules.summary
  | .analyze ids =>
    let rules ← settled (RuleSet.ofIds ids)
    let response ← settled (analyze (← load (root i) files) rules)
    return i.format.render response.toJson response.summary
  | .fix place ids dryRun =>
    let rules ← settled (RuleSet.ofIds ids)
    let target ← settled (FixTarget.ofOption place)
    let outcome ← settled (fix (← load (root i) files) target rules false)
    -- Without a dry run the files are written before anything is reported.
    let response ← if dryRun then pure outcome.response else commit files outcome
    return i.format.renderFix response

/-- The exit code of a process that the system stops. -/
def abortCode : Nat := 134

/-- The end of a command, from what it came to.  A process that dies reports nothing. -/
def complete : Result String → Completion
  | .ok text => ⟨0, text⟩
  | .error .stackOverflow => ⟨abortCode, ""⟩
  | .error e => ⟨e.code.number, (ErrorResponse.ofError e).toJson.emit⟩

/-- Run a command line, given the files below a path. -/
def run (program : String) (arguments : List String) (files : String → FileAccess m) :
    m Completion :=
  match Invocation.ofArguments? arguments with
  | none => pure ⟨ErrorCode.invalidArguments.number, ""⟩
  | some i => complete <$> (execute program i (files (root i))).run

end Command

end CodeMend
