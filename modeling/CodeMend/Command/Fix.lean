import CodeMend.Command.Analyze
import CodeMend.Fix.Batch
import CodeMend.Text.Alignment
import CodeMend.Text.Digest
import CodeMend.Workspace.Directory

/-!
# CodeMend — the command that fixes

`fix` works out the fix of one finding, or of all of them, without a change to any file.  The
changed documents are written afterwards, and only if every file still has the text that the fix was
worked out from.

* **`fixAt`** — the fix of the finding at a place.
* **`fixEverything`** — the fixes of all findings.
* **`writeChanges`** — write all changed documents, or none.
-/

namespace CodeMend

/-- What `fix` is to fix. -/
inductive FixTarget where
  /-- The finding at a place. -/
  | place (location : Location)
  /-- Every finding. -/
  | all
deriving Repr

/-- The target that a place on the command line names. -/
def FixTarget.ofText (text : String) : Except CommandError FixTarget :=
  match Location.parse? text with
  | some l => .ok (.place l)
  | none =>
    .error (.invalidArguments
      ("invalid location format '" ++ text ++ "', expected path:line:col") none)

/-- The target that an option names, if it is given, and else everything. -/
def FixTarget.ofOption : Option String → Except CommandError FixTarget
  | some text => FixTarget.ofText text
  | none => .ok .all

/-- A fix that is worked out: what to report and what to write. -/
structure FixOutcome where
  response : FixResponse
  changes : List DocumentChange
deriving Repr

namespace Command

/-- What a fix reports before anything is written. -/
def fixResponse (fixed : List FindingInfo) (changes : List DocumentChange)
    (warnings : List Warning) : FixResponse where
  fixed := fixed
  snapshots := changes.map fun c => ⟨c.path, Digest.ofText c.before⟩
  edits := changes.flatMap fun c =>
    c.edits.map fun e => PlacedEdit.ofSpan c.path c.before e.span e.newText
  diff := unifiedDiffs align (changes.map fun c => ⟨c.path, c.before, c.after⟩)
  applied := false
  filesWritten := none
  warnings := warnings

/-- The path in the form that documents have: with slashes, and without `./` in front. -/
def documentPath (path : String) : String :=
  let cs := path.toList.map fun c => if c = '\\' then '/' else c
  String.ofList ((dropFront? ['.', '/'] cs).getD cs)

/-- Why there is no document with a path. -/
def missingDocument (s : Solution) (path : String) : CommandError :=
  match s.skipped.find? fun d => d.path == path with
  | some d => (AnalysisError.parse d.path d.error).toCommandError
  | none => .fileNotFound path

/-- The first finding in a document whose anchor covers a place. -/
def findingAt? (findings : List Finding) (d : Document) (line column : UInt32) : Option Finding :=
  let offset := Position.toOffset d.text ⟨line, column⟩
  findings.find? fun f => f.document == d.id && f.span.containsOffset offset

/-- A warning about a finding, at the place where it is reported. -/
def findingWarning (s : Solution) (code message : String) (f : Finding) : Result Warning := do
  return ⟨code, message, some (← reported (f.info s none)).location⟩

/-- The call sites that a fix left alone. -/
def siteWarnings (skipped : Nat) : List Warning :=
  if skipped = 0 then []
  else [{ code := "sites_skipped",
          message := toString skipped ++ " call site(s) were left unchanged" }]

/-- Work out the fix of the finding at a place. -/
def fixAt (p : Program) (place : Location) (rules : RuleSet) (cancelled : Bool) :
    Result FixOutcome := do
  let s := p.solution
  let path := documentPath place.file
  let some d := s.documentByPath? path | throw (missingDocument s path)
  -- The place is searched for among all findings, in their order.
  let findings ← reported (Check.solution p rules)
  let some f := findingAt? findings d place.line place.column
    | throw (.findingNotFound path place.line place.column)
  match ← reported (f.applyFix p cancelled) with
  | none =>
    let warning ← findingWarning s "no_fix" ("no fix is offered for " ++ f.rule.id) f
    return ⟨fixResponse [] [] [warning], []⟩
  | some o =>
    let info ← reported (f.info s (some f.rule.fixTitle))
    return ⟨fixResponse [info] o.documents (siteWarnings o.skipped), o.documents⟩

/-- The warning about a fix that a batch dropped. -/
def droppedWarning (s : Solution) (f : Finding) : Result Warning :=
  findingWarning s "fix_skipped" ("fix for " ++ f.rule.id ++ " was not applied in this pass") f

/-- Work out the fixes of all findings at once. -/
def fixEverything (p : Program) (rules : RuleSet) (cancelled : Bool) : Result FixOutcome := do
  let s := p.solution
  let findings ← reported (Check.solution p rules)
  let batch ← reported (fixAll p findings (.rules rules) cancelled)
  let fixed ← reported (batch.applied.mapM fun f => f.info s (some f.rule.fixTitle))
  let warnings ← batch.dropped.mapM (droppedWarning s)
  return ⟨fixResponse fixed batch.documents warnings, batch.documents⟩

/-- Work out a fix. -/
def fix (s : Solution) (target : FixTarget) (rules : RuleSet) (cancelled : Bool) :
    Result FixOutcome :=
  let p := Program.ofSolution s
  match target with
  | .place l => fixAt p l rules cancelled
  | .all => fixEverything p rules cancelled

/-- The file of a changed document and its new text, if it still has the text that the change starts
from. -/
def fileToWrite (d : Directory) (c : DocumentChange) : Result (String × String) :=
  match d.get? c.path with
  | none => .error (.apply "No such file or directory (os error 2)" (some c.path))
  | some text =>
    if text = c.before then .ok (c.path, c.after)
    else .error (.apply "file changed on disk since it was analyzed" (some c.path))

/-- Write changed documents, if no file changed in the meantime. -/
def writeChanges (d : Directory) (changes : List DocumentChange) : Result Directory := do
  return d.putAll (← changes.mapM (fileToWrite d))

end Command

/-- The report of a fix whose documents are written. -/
def FixOutcome.writtenResponse (o : FixOutcome) : FixResponse :=
  { o.response with applied := true, filesWritten := some (o.changes.map DocumentChange.path) }

end CodeMend
