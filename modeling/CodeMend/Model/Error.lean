import CodeMend.Grammar.Cursor
import CodeMend.Report.Error
import CodeMend.Token.Layout

/-!
# CodeMend — errors of analysis and fixing

What can go wrong between reading a solution and committing a fix, and how the command line reports
it.  An analysis never takes a failure for "nothing found".
-/

namespace CodeMend

/-- Why an analysis or a fix failed. -/
inductive AnalysisError where
  /-- A document does not parse. -/
  | parse (path : String) (error : ParseError)
  /-- A changed document no longer parses. -/
  | verification (path message : String)
  /-- A possible call of the method to change could not be bound, so that not every call can follow
  the change. -/
  | unboundCallSite (method path reason : String)
  /-- The operation was cancelled before it was committed. -/
  | cancelled
  /-- The solution has no document of that number. -/
  | unknownDocument (document : Nat)
  | edit (error : EditError)
  | layout (error : LayoutError)
  /-- The directory of the workspace is not there. -/
  | missingWorkspace (path : String)
  /-- The type of a variable is asked for while it is worked out.  The process dies of this, with
  its stack used up. -/
  | endlessType
  /-- Something that the engine relies on does not hold. -/
  | internal (message : String)
deriving DecidableEq, Repr

namespace AnalysisError

def message : AnalysisError → String
  | .parse path e => path ++ ": " ++ e.message
  | .verification path m => "rewrite of " ++ path ++ " produced invalid code: " ++ m
  | .unboundCallSite method path reason =>
    "cannot rewrite every call of " ++ method ++ ": " ++ reason ++ " in " ++ path
  | .cancelled => "operation cancelled"
  | .unknownDocument d => "unknown document #" ++ toString d
  | .edit e => e.message
  | .layout e => e.message
  | .missingWorkspace path => "cannot read " ++ path
  | .endlessType => "stack overflow"
  | .internal m => "internal error: " ++ m

/-- The error as the command line reports it. -/
def toCommandError : AnalysisError → CommandError
  | .parse path e =>
    .parse path (e.fault.message ++ " (line " ++ toString e.position.line ++ ", column " ++
      toString e.position.column ++ ")")
  | .verification path m => .verification path m
  | .unboundCallSite method path reason =>
    .unboundCallSite path (reason ++ " (" ++ method ++ ")")
  | .cancelled => .cancelled
  | .unknownDocument d => .internal ("unknown document #" ++ toString d)
  | .edit e => .ofEdit e
  | .layout e => .apply e.message none
  | .missingWorkspace path => .fileNotFound path
  | .endlessType => .stackOverflow
  | .internal m => .internal m

end AnalysisError

/-- The result of an analysis. -/
abbrev Analysis := Except AnalysisError

end CodeMend
