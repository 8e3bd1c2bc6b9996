import CodeMend.Fix.Apply

/-!
# CodeMend — fixing many findings at once

Every fix is worked out by itself on the same solution.  They are accepted one after the other, and
a fix whose changes overlap those of an accepted one is dropped as a whole.
-/

namespace CodeMend

/-- Which fixes a batch takes. -/
inductive FixScope where
  /-- The fixes with a key. -/
  | key (text : String)
  /-- The fixes for findings of some rules. -/
  | rules (taken : RuleSet)
deriving Repr

/-- The scope takes the fix of a finding. -/
def FixScope.includes (scope : FixScope) (f : Finding) : Bool :=
  match scope with
  | .key text => f.rule.fixKey == text
  | .rules taken => taken.contains f.rule

/-- What a batch leads to. -/
structure BatchOutcome where
  solution : Solution
  documents : List DocumentChange
  /-- The findings whose fixes went in. -/
  applied : List Finding
  /-- The findings whose fixes did not: they overlapped, changed nothing or failed. -/
  dropped : List Finding

namespace Batch

/-- The fixes accepted so far. -/
structure Progress where
  accepted : ByDocument TextEdit := []
  applied : List Finding := []
  dropped : List Finding := []

/-- A fix that fails in this way is dropped; any other failure ends the batch. -/
def isDropped : AnalysisError → Bool
  | .verification _ _ | .unboundCallSite _ _ _ => true
  | _ => false

/-- Some change overlaps an accepted edit. -/
def conflicts (accepted : ByDocument TextEdit) (changes : List DocumentChange) : Bool :=
  changes.any fun c => editsConflict (accepted.ofDocument c.document) c.edits

/-- Accept a fix or drop it. -/
def consider (s : Progress) (f : Finding) (outcome : Analysis PlanOutcome) :
    Analysis Progress :=
  let drop := { s with dropped := s.dropped ++ [f] }
  match outcome with
  | .error e => if isDropped e then .ok drop else .error e
  | .ok o =>
    if o.isEmpty || conflicts s.accepted o.documents then .ok drop
    else .ok { s with
      accepted := o.documents.foldl (fun m c => m.append c.document c.edits) s.accepted
      applied := s.applied ++ [f] }

/-- The change of a document by the accepted edits. -/
def documentChange (s : Solution) (id : DocumentId) (edits : List TextEdit) :
    Analysis DocumentChange := do
  let d ← s.document id
  let text ← (applyEdits d.text edits).mapError .edit
  match parse text with
  | .error e => .error (.verification d.path e.fault.message)
  | .ok _ =>
    return ⟨id, d.path, d.text, text,
      sortStable (fun a b => compare a.span.start b.span.start) edits⟩

/-- Make the accepted edits of all documents. -/
def commit (s : Solution) (accepted : ByDocument TextEdit) :
    Analysis (Solution × List DocumentChange) := do
  let changes ← accepted.mapM fun (id, edits) => documentChange s id edits
  return (← s.withChanges changes, changes)

end Batch

/-- Carry out the fixes of findings that a scope takes, in the order of the findings. -/
def fixAll (p : Program) (findings : List Finding) (scope : FixScope) (cancelled : Bool) :
    Analysis BatchOutcome := do
  let offered ← findings.filterM fun f => f.offersFix p.solution
  let s ← (offered.filter scope.includes).foldlM
    (fun s f => Batch.consider s f (f.runFix p cancelled)) {}
  if cancelled then .error .cancelled
  let (solution, documents) ← Batch.commit p.solution s.accepted
  return ⟨solution, documents, s.applied, s.dropped⟩

end CodeMend
