import CodeMend.Model.Solution
import CodeMend.Rule.Description

/-!
# CodeMend — findings

A finding is one occurrence of what a rule looks for.  It is anchored at a small span: a keyword, a
return type or what a call calls.
-/

namespace CodeMend

structure Finding where
  rule : Rule
  document : DocumentId
  /-- The anchor. -/
  span : Span
  /-- What the message is filled with. -/
  arguments : List String
deriving DecidableEq, Repr, Inhabited

namespace Finding

def message (f : Finding) : String := f.rule.message.fill f.arguments

/-- Findings are ordered by document, anchor and rule. -/
def compare (f g : Finding) : Ordering :=
  (Ord.compare f.document g.document).then
    ((Ord.compare f.span.start g.span.start).then (Ord.compare f.rule.number g.rule.number))

/-- The finding as it is reported, with the title of the fix on offer. -/
def info (f : Finding) (s : Solution) (fix : Option String) : Analysis FindingInfo := do
  let d ← s.document f.document
  return {
    rule := f.rule.id
    severity := f.rule.severity.name
    message := f.message
    location := Location.ofSpan d.path d.text f.span
    arguments := f.arguments
    fix := fix }

end Finding

end CodeMend
