import CodeMend.Json.Value
import CodeMend.Text.Edit

/-!
# CodeMend — errors as the command line reports them

Every way in which a command can fail, with its message and the class that decides the exit code.
-/

namespace CodeMend

/-- The classes of errors that a caller can tell apart by number. -/
inductive ErrorCode where
  /-- The request makes no sense. -/
  | invalidArguments
  /-- What the request names is not there. -/
  | resolution
  /-- The changes could not be made. -/
  | apply
  /-- A changed document no longer parses. -/
  | verification
  /-- A fault of this program. -/
  | internal
deriving DecidableEq, Repr

/-- The exit code of a class. -/
def ErrorCode.number : ErrorCode → Nat
  | .invalidArguments => 2
  | .resolution => 3
  | .apply => 4
  | .verification => 5
  | .internal => 10

/-- Why a command failed. -/
inductive CommandError where
  | invalidArguments (message : String) (details : Option Json)
  | unknownRule (id : String)
  | findingNotFound (file : String) (line column : UInt32)
  | fileNotFound (path : String)
  | parse (file message : String)
  | unboundCallSite (file message : String)
  | apply (message : String) (file : Option String)
  | cancelled
  | verification (file message : String)
  /-- The process dies with its stack used up. -/
  | stackOverflow
  | internal (message : String)
deriving Repr

namespace CommandError

def message : CommandError → String
  | .invalidArguments m _ => "invalid arguments: " ++ m
  | .unknownRule id => "unknown rule '" ++ id ++ "'"
  | .findingNotFound file line column =>
    "no finding at " ++ file ++ ":" ++ toString line ++ ":" ++ toString column
  | .fileNotFound path => "file not found: " ++ path
  | .parse file m => "parse error in " ++ file ++ ": " ++ m
  | .unboundCallSite file m => "unbound call site in " ++ file ++ ": " ++ m
  | .apply m _ => "apply error: " ++ m
  | .cancelled => "operation cancelled"
  | .verification file m => "verification failed for " ++ file ++ ": " ++ m
  | .stackOverflow => "stack overflow"
  | .internal m => "internal error: " ++ m

def code : CommandError → ErrorCode
  | .invalidArguments _ _ | .unknownRule _ => .invalidArguments
  | .findingNotFound _ _ _ | .fileNotFound _ | .parse _ _ | .unboundCallSite _ _ => .resolution
  | .apply _ _ | .cancelled => .apply
  | .verification _ _ => .verification
  | .stackOverflow | .internal _ => .internal

/-- The structured part of the report: what the error is about, unless it is a location. -/
def details : CommandError → Option Json
  | .invalidArguments _ details => details
  | .unknownRule id => some (.obj [("rule", .str id)])
  | .fileNotFound path => some (.obj [("path", .str path)])
  | .parse file _ | .unboundCallSite file _ | .verification file _ =>
    some (.obj [("file", .str file)])
  | .apply _ file => file.map fun f => .obj [("file", .str f)]
  | _ => none

/-- Where the error lies, when it names a location. -/
def location : CommandError → Option Location
  | .findingNotFound file line column => some { file, line, column }
  | _ => none

/-- An edit that cannot be carried out is a change that could not be made, of no file in
particular. -/
def ofEdit (e : EditError) : CommandError := .apply e.message none

end CommandError

end CodeMend
