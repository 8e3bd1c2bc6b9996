import CodeMend.Report.Error

/-!
# CodeMend — responses

What each command answers, and how an answer is written as JSON.  Fields stand in the order of
their declaration, an absent option is left out, findings are ordered by location and then by rule,
and edits by file and then by offset.
-/

namespace CodeMend

/-- The version of the form of all responses. -/
def schemaVersion : String := "1"

/-- A finding as it is reported. -/
structure FindingInfo where
  rule : String
  severity : String
  message : String
  location : Location
  arguments : List String
  /-- The title of the fix that is offered, if any. -/
  fix : Option String
deriving Repr, DecidableEq

/-- Something that a successful command points out. -/
structure Warning where
  code : String
  message : String
  location : Option Location := none
deriving Repr, DecidableEq

/-- The digest of a file as it was read. -/
structure FileSnapshot where
  file : String
  hash : String
deriving Repr, DecidableEq

/-- The description of a rule. -/
structure RuleInfo where
  id : String
  title : String
  severity : String
  category : String
  helpUri : String
deriving Repr, DecidableEq

structure ErrorInfo where
  code : Nat
  message : String
  details : Option Json
  location : Option Location
deriving Repr

structure ErrorResponse where
  status : String := "error"
  schemaVersion : String := CodeMend.schemaVersion
  error : ErrorInfo
deriving Repr

structure AnalyzeResponse where
  status : String := "ok"
  schemaVersion : String := CodeMend.schemaVersion
  filesAnalyzed : Nat
  findings : List FindingInfo
  warnings : List Warning
deriving Repr

structure FixResponse where
  status : String := "ok"
  schemaVersion : String := CodeMend.schemaVersion
  /-- The findings whose fixes went in. -/
  fixed : List FindingInfo
  /-- The files that the edits were computed from. -/
  snapshots : List FileSnapshot
  edits : List PlacedEdit
  diff : String
  /-- The edits were written to the files. -/
  applied : Bool
  /-- The files that were written, once they are. -/
  filesWritten : Option (List String)
  warnings : List Warning
deriving Repr

structure RulesResponse where
  status : String := "ok"
  schemaVersion : String := CodeMend.schemaVersion
  rules : List RuleInfo
deriving Repr

/-- The report of an error. -/
def ErrorResponse.ofError (e : CommandError) : ErrorResponse :=
  { error := ⟨e.code.number, e.message, e.details, e.location⟩ }

/-! ## JSON

What is reported is written as JSON with the members in the order of their names.  Findings and
edits are put in order first, so that a response does not depend on the order in which they were
found. -/

/-- A member that is left out when its value is absent. -/
def Json.optional {α : Type} (name : String) (toJson : α → Json) : Option α → List (String × Json)
  | none => []
  | some v => [(name, toJson v)]

def Location.toJson (l : Location) : Json :=
  .obj ([("file", .str l.file), ("line", .ofNat l.line.toNat), ("col", .ofNat l.column.toNat)] ++
    Json.optional "byte_start" .ofNat l.byteStart ++ Json.optional "byte_end" .ofNat l.byteStop)

def Span.toJson (s : Span) : Json := .obj [("start", .ofNat s.start), ("end", .ofNat s.stop)]

def PlacedEdit.toJson (e : PlacedEdit) : Json :=
  .obj [("file", .str e.file), ("span", e.span.toJson), ("old_text", .str e.oldText),
    ("new_text", .str e.newText), ("line", .ofNat e.line.toNat),
    ("col", .ofNat e.column.toNat)]

def FindingInfo.toJson (f : FindingInfo) : Json :=
  .obj ([("rule", .str f.rule), ("severity", .str f.severity), ("message", .str f.message),
    ("location", f.location.toJson), ("arguments", .arr (f.arguments.map .str))] ++
    Json.optional "fix" .str f.fix)

def Warning.toJson (w : Warning) : Json :=
  .obj ([("code", .str w.code), ("message", .str w.message)] ++
    Json.optional "location" Location.toJson w.location)

def FileSnapshot.toJson (s : FileSnapshot) : Json :=
  .obj [("file", .str s.file), ("hash", .str s.hash)]

def RuleInfo.toJson (r : RuleInfo) : Json :=
  .obj [("id", .str r.id), ("title", .str r.title), ("severity", .str r.severity),
    ("category", .str r.category), ("help_uri", .str r.helpUri)]

def ErrorInfo.toJson (e : ErrorInfo) : Json :=
  .obj ([("code", .ofNat e.code), ("message", .str e.message)] ++
    Json.optional "details" id e.details ++ Json.optional "location" Location.toJson e.location)

def ErrorResponse.toJson (r : ErrorResponse) : Json :=
  .obj [("status", .str r.status), ("schema_version", .str r.schemaVersion),
    ("error", r.error.toJson)]

/-- The order of reported findings. -/
def FindingInfo.compare (a b : FindingInfo) : Ordering :=
  (a.location.compare b.location).then (Ord.compare a.rule b.rule)

/-- The order of reported edits. -/
def PlacedEdit.compare (a b : PlacedEdit) : Ordering :=
  (Ord.compare a.file b.file).then (Ord.compare a.span.start b.span.start)

def AnalyzeResponse.toJson (r : AnalyzeResponse) : Json :=
  .obj [("status", .str r.status), ("schema_version", .str r.schemaVersion),
    ("files_analyzed", .ofNat r.filesAnalyzed),
    ("findings", .arr ((sortStable FindingInfo.compare r.findings).map FindingInfo.toJson)),
    ("warnings", .arr (r.warnings.map Warning.toJson))]

def FixResponse.toJson (r : FixResponse) : Json :=
  .obj ([("status", .str r.status), ("schema_version", .str r.schemaVersion),
    ("fixed", .arr ((sortStable FindingInfo.compare r.fixed).map FindingInfo.toJson)),
    ("snapshots", .arr (r.snapshots.map FileSnapshot.toJson)),
    ("edits", .arr ((sortStable PlacedEdit.compare r.edits).map PlacedEdit.toJson)),
    ("diff", .str r.diff), ("applied", .bool r.applied)] ++
    Json.optional "files_written" (fun files => .arr (files.map .str)) r.filesWritten ++
    [("warnings", .arr (r.warnings.map Warning.toJson))])

def RulesResponse.toJson (r : RulesResponse) : Json :=
  .obj [("status", .str r.status), ("schema_version", .str r.schemaVersion),
    ("rules", .arr (r.rules.map RuleInfo.toJson))]

/-- The text of a response: its indented JSON and a line feed. -/
def Json.emit (v : Json) : String := v.render ++ "\n"

end CodeMend
