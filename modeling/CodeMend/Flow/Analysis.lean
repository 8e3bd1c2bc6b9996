import CodeMend.Flow.Assignment
import CodeMend.Flow.Reading
import CodeMend.Text.Location

/-!
# CodeMend — data flow of a method body

What happens to the variables of a method inside its body.  Every variable from outside starts out
unwritten, so a parameter whose incoming value is used shows up among the variables that flow in.
-/

namespace CodeMend

/-- What happens to variables inside a body.  The lists are ordered and have no variable twice. -/
structure DataFlow where
  /-- The variables that are written somewhere. -/
  written : List VariableId
  /-- The variables that are written on every way out of the body. -/
  alwaysAssigned : List VariableId
  /-- The variables from outside that may be read before they are written. -/
  flowsIn : List VariableId
deriving DecidableEq, Repr

/-- The variables of a list in order, each once. -/
def VariableId.sorted (vs : List VariableId) : List VariableId :=
  sortStable VariableId.compare vs.eraseDups

/-- The data flow of a body in a region of a document. -/
def DataFlow.ofStmt (region : Span) (body : Flow.Stmt) : DataFlow :=
  let entry := Flow.Knowledge.reachable []
  let o := body.outcome entry
  { written := VariableId.sorted body.written
    alwaysAssigned := VariableId.sorted (o.left.join o.next).assigned
    flowsIn := VariableId.sorted
      ((body.early entry).filter fun v => !region.containsOffset v.offset) }

/-- The data flow of a body, when all of its parts have a form. -/
def Binder.dataFlow? (b : Binder) (body : NodeId) : Option DataFlow :=
  (Flow.readBody? b body).map (DataFlow.ofStmt (b.tree.span body))

end CodeMend
