import CodeMend.Report.Response

/-!
# CodeMend — reading responses back

The inverse of writing: each function takes a JSON object apart and has no result when a member is
missing, has the wrong form or a number that does not fit.  Members that a response does not know
are passed over, and an option may be absent or null.  In the place of an object there may be the
list of all its values, in the order in which they are written.
-/

namespace CodeMend

namespace Json

/-- The member of an object. -/
def member? (v : Json) (name : String) : Option Json :=
  match v with
  | .obj ms => ms.lookup name
  | _ => none

def asText? : Json → Option String
  | .str s => some s
  | _ => none

/-- A number from zero up to below a limit. -/
def asNat? (limit : Nat) : Json → Option Nat
  | .int n => if 0 ≤ n && n.toNat < limit then some n.toNat else none
  | _ => none

/-- A number of at most 32 bits, as lines and columns are. -/
def asUInt32? (v : Json) : Option UInt32 := (asNat? UInt32.size v).map .ofNat

def asBool? : Json → Option Bool
  | .bool b => some b
  | _ => none

/-- A list, with all of its items read. -/
def asList? {α : Type} (read : Json → Option α) : Json → Option (List α)
  | .arr items => items.mapM read
  | _ => none

/-- The object with the given members that a value stands for: an object does for itself, and a list
with a value for each member. -/
def record? (v : Json) (names : List String) : Option Json :=
  match v with
  | .obj _ => some v
  | .arr values => if values.length = names.length then some (.obj (names.zip values)) else none
  | _ => none

/-- A member, read. -/
def read? {α : Type} (v : Json) (name : String) (read : Json → Option α) : Option α :=
  (v.member? name).bind read

/-- A member that may be absent or null. -/
def readOptional? {α : Type} (v : Json) (name : String) (read : Json → Option α) :
    Option (Option α) :=
  match v.member? name with
  | none | some .null => some none
  | some w => (read w).map some

end Json

open Json

/-- The limit of offsets and counts. -/
def sizeLimit : Nat := UInt64.size

def Location.ofJson? (v : Json) : Option Location := do
  let v ← v.record? ["file", "line", "col", "byte_start", "byte_end"]
  return ⟨← v.read? "file" asText?, ← v.read? "line" asUInt32?,
    ← v.read? "col" asUInt32?, ← v.readOptional? "byte_start" (asNat? sizeLimit),
    ← v.readOptional? "byte_end" (asNat? sizeLimit)⟩

def Span.ofJson? (v : Json) : Option Span := do
  let v ← v.record? ["start", "end"]
  return ⟨← v.read? "start" (asNat? sizeLimit), ← v.read? "end" (asNat? sizeLimit)⟩

def PlacedEdit.ofJson? (v : Json) : Option PlacedEdit := do
  let v ← v.record? ["file", "span", "old_text", "new_text", "line", "col"]
  return ⟨← v.read? "file" asText?, ← v.read? "span" Span.ofJson?, ← v.read? "old_text" asText?,
    ← v.read? "new_text" asText?, ← v.read? "line" asUInt32?,
    ← v.read? "col" asUInt32?⟩

def FindingInfo.ofJson? (v : Json) : Option FindingInfo := do
  let v ← v.record? ["rule", "severity", "message", "location", "arguments", "fix"]
  return ⟨← v.read? "rule" asText?, ← v.read? "severity" asText?, ← v.read? "message" asText?,
    ← v.read? "location" Location.ofJson?, ← v.read? "arguments" (asList? asText?),
    ← v.readOptional? "fix" asText?⟩

def Warning.ofJson? (v : Json) : Option Warning := do
  let v ← v.record? ["code", "message", "location"]
  return ⟨← v.read? "code" asText?, ← v.read? "message" asText?,
    ← v.readOptional? "location" Location.ofJson?⟩

def FileSnapshot.ofJson? (v : Json) : Option FileSnapshot := do
  let v ← v.record? ["file", "hash"]
  return ⟨← v.read? "file" asText?, ← v.read? "hash" asText?⟩

def RuleInfo.ofJson? (v : Json) : Option RuleInfo := do
  let v ← v.record? ["id", "title", "severity", "category", "help_uri"]
  return ⟨← v.read? "id" asText?, ← v.read? "title" asText?, ← v.read? "severity" asText?,
    ← v.read? "category" asText?, ← v.read? "help_uri" asText?⟩

/-- The limit of error codes, which serve as exit codes. -/
def codeLimit : Nat := UInt8.size

def ErrorInfo.ofJson? (v : Json) : Option ErrorInfo := do
  let v ← v.record? ["code", "message", "details", "location"]
  return ⟨← v.read? "code" (asNat? codeLimit), ← v.read? "message" asText?,
    ← v.readOptional? "details" some, ← v.readOptional? "location" Location.ofJson?⟩

def AnalyzeResponse.ofJson? (v : Json) : Option AnalyzeResponse := do
  let v ← v.record? ["status", "schema_version", "files_analyzed", "findings", "warnings"]
  return ⟨← v.read? "status" asText?, ← v.read? "schema_version" asText?,
    ← v.read? "files_analyzed" (asNat? sizeLimit),
    ← v.read? "findings" (asList? FindingInfo.ofJson?),
    ← v.read? "warnings" (asList? Warning.ofJson?)⟩

def FixResponse.ofJson? (v : Json) : Option FixResponse := do
  let v ← v.record? ["status", "schema_version", "fixed", "snapshots", "edits",
    "diff", "applied", "files_written", "warnings"]
  return ⟨← v.read? "status" asText?, ← v.read? "schema_version" asText?,
    ← v.read? "fixed" (asList? FindingInfo.ofJson?),
    ← v.read? "snapshots" (asList? FileSnapshot.ofJson?),
    ← v.read? "edits" (asList? PlacedEdit.ofJson?), ← v.read? "diff" asText?,
    ← v.read? "applied" asBool?, ← v.readOptional? "files_written" (asList? asText?),
    ← v.read? "warnings" (asList? Warning.ofJson?)⟩

def RulesResponse.ofJson? (v : Json) : Option RulesResponse := do
  let v ← v.record? ["status", "schema_version", "rules"]
  return ⟨← v.read? "status" asText?, ← v.read? "schema_version" asText?,
    ← v.read? "rules" (asList? RuleInfo.ofJson?)⟩

def ErrorResponse.ofJson? (v : Json) : Option ErrorResponse := do
  let v ← v.record? ["status", "schema_version", "error"]
  return ⟨← v.read? "status" asText?, ← v.read? "schema_version" asText?,
    ← v.read? "error" ErrorInfo.ofJson?⟩

end CodeMend
