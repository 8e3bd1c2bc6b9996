import CodeMend.Report.Response

/-!
# CodeMend — responses as plain text

Responses for a reader: a line for each thing that is reported, then the warnings, then the totals.
-/

namespace CodeMend

namespace Summary

/-- The line of a finding that is open. -/
def finding (f : FindingInfo) : String :=
  f.location.render ++ ": " ++ f.severity ++ " " ++ f.rule ++ ": " ++ f.message ++ "\n"

/-- The line of a finding that is fixed. -/
def fixed (f : FindingInfo) : String := "fixed " ++ f.rule ++ " at " ++ f.location.render ++ "\n"

/-- The line of a warning. -/
def warning (w : Warning) : String :=
  match w.location with
  | some l => "warning[" ++ w.code ++ "] " ++ l.render ++ ": " ++ w.message ++ "\n"
  | none => "warning[" ++ w.code ++ "]: " ++ w.message ++ "\n"

/-- The line of a rule; the severities are as wide as the longest of them. -/
def rule (r : RuleInfo) : String :=
  r.id ++ " " ++ String.ofList (r.severity.toList.rightpad 7 ' ') ++ " " ++ r.title ++ "\n"

end Summary

/-- Findings in order, and how many there are. -/
def AnalyzeResponse.summary (r : AnalyzeResponse) : String :=
  String.join ((sortStable FindingInfo.compare r.findings).map Summary.finding) ++
    String.join (r.warnings.map Summary.warning) ++
    toString r.findings.length ++ " finding(s) in " ++ toString r.filesAnalyzed ++ " file(s)\n"

/-- What was fixed, and how much was written. -/
def FixResponse.summary (r : FixResponse) : String :=
  String.join (r.fixed.map Summary.fixed) ++ String.join (r.warnings.map Summary.warning) ++
    match r.filesWritten with
    | some files => toString files.length ++ " file(s) written\n"
    | none => toString r.edits.length ++ " edit(s), nothing written\n"

/-- The rules, one to a line. -/
def RulesResponse.summary (r : RulesResponse) : String :=
  String.join (r.rules.map Summary.rule)

end CodeMend
