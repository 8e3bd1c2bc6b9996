import CodeMend.Fix.Execution
import CodeMend.Plan.Resolve

/-!
# CodeMend — the fix of a finding

Every finding offers a fix, except for a redundant conversion whose result is not used.
-/

namespace CodeMend

/-- A fix is on offer for a finding. -/
def Finding.offersFix (f : Finding) (s : Solution) : Analysis Bool :=
  if f.rule == .redundantConversion then do
    let t := (← s.document f.document).tree
    return match Anchor.invocation? t f.span with
      | some invocation => Check.resultUse t invocation == .used
      | none => false
  else .ok true

/-- The title of the fix on offer. -/
def Finding.fixTitle? (f : Finding) (s : Solution) : Analysis (Option String) := do
  return if ← f.offersFix s then some f.rule.fixTitle else none

/-- Plan and carry out the fix of a finding. -/
def Finding.runFix (f : Finding) (p : Program) (cancelled : Bool) : Analysis PlanOutcome := do
  (← Plan.resolve p f cancelled).execute p.solution cancelled

/-- Carry out the fix of a finding, if it is on offer. -/
def Finding.applyFix (f : Finding) (p : Program) (cancelled : Bool) :
    Analysis (Option PlanOutcome) := do
  if ← f.offersFix p.solution then return some (← f.runFix p cancelled) else return none

end CodeMend
