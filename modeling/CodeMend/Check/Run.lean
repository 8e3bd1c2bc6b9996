import CodeMend.Check.Conversion
import CodeMend.Check.DuplicateCall
import CodeMend.Check.Signature

/-!
# CodeMend — running the checks

Every node of a document is checked by itself, so the findings of one document never depend on those
of another.
-/

namespace CodeMend.Check

/-- What the check for the kind of a node finds.  A check runs only if one of its rules is asked
for. -/
def nodeCheck (b : Binder) (rules : RuleSet) (n : NodeId) : Analysis (Option Finding) :=
  let anyOf := fun (rs : List Rule) => rs.any rules.contains
  match b.tree.kind n with
  | .parameter => if anyOf [.unneededRef, .refAsOut] then refParameter b n else .ok none
  | .methodDeclaration => if anyOf [.outAsResult, .outsAsTuple] then outParameters b n else .ok none
  | .invocationExpression => if anyOf [.redundantConversion] then conversion? b n else .ok none
  | .ifStatement | .conditionalExpression =>
    if anyOf [.duplicateCall] then duplicateCall? b n else .ok none
  | _ => .ok none

/-- What there is to report about a node under some rules. -/
def node (b : Binder) (rules : RuleSet) (n : NodeId) : Analysis (Option Finding) := do
  return (← nodeCheck b rules n).filter fun f => rules.contains f.rule

/-- The findings of a document, in the order of the nodes. -/
def document (p : Program) (d : Document) (rules : RuleSet) : Analysis (List Finding) := do
  let b := Binder.ofDocument p d
  let found ← (d.tree.descendants Tree.root).mapM (node b rules)
  return found.filterMap id

/-- The findings of all documents, in order. -/
def solution (p : Program) (rules : RuleSet) : Analysis (List Finding) := do
  let found ← p.solution.documents.mapM fun d => document p d rules
  return sortStable Finding.compare found.flatten

end CodeMend.Check
