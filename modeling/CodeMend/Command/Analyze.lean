import CodeMend.Check.Run
import CodeMend.Fix.Apply

/-!
# CodeMend — the commands that report

`analyze` reports the findings of a solution, and `rules` describes the rules.

* **`RuleSet.ofIds`** — the rules that the options of a command select.
-/

namespace CodeMend

/-- The rules with the given ids; no ids select every rule. -/
def RuleSet.ofIds (ids : List String) : Except CommandError RuleSet :=
  if ids.isEmpty then .ok Rule.all
  else ids.mapM fun id =>
    match Rule.ofId? id with
    | some r => .ok r
    | none => .error (.unknownRule id)

namespace Command

/-- The result of a command. -/
abbrev Result := Except CommandError

/-- The result of an analysis as that of a command. -/
def reported {α : Type} (r : Analysis α) : Result α := r.mapError AnalysisError.toCommandError

/-- The warning about a file that did not parse. -/
def skippedWarning (d : SkippedDocument) : Warning :=
  let place := d.error.position
  { code := "parse_error"
    message := "file skipped: " ++ d.error.fault.message
    location := some { file := d.path, line := place.line, column := place.column } }

/-- A finding as `analyze` reports it. -/
def describe (s : Solution) (f : Finding) : Analysis FindingInfo := do f.info s (← f.fixTitle? s)

/-- Report the findings of some rules. -/
def analyze (s : Solution) (rules : RuleSet) : Result AnalyzeResponse := do
  let findings ← reported (Check.solution (Program.ofSolution s) rules)
  return {
    filesAnalyzed := s.size
    findings := ← reported (findings.mapM (describe s))
    warnings := s.skipped.map skippedWarning }

/-- Describe every rule. -/
def rules : RulesResponse := { rules := Rule.all.map Rule.info }

end Command

end CodeMend
