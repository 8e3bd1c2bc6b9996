import CodeMend.Patch.OfRule
import CodeMend.Plan.Basic
import CodeMend.Text.EditLog

/-!
# CodeMend — carrying out a plan

The sites of a document are taken from its end towards its start, each in a fresh parse of the text
as it stands, so that a change only shifts text behind the sites that still wait.  A site whose node
is gone or no longer has the form that the fix needs is skipped.  At the end the blanks around the
patches are tidied and the text is parsed once more.

* **`shiftRegions`** — regions of the text keep to what they covered while it changes.
* **`changeDocument`** — the change of one document.
* **`Plan.execute`** — the changes of all documents of a plan, or none of them.
-/

namespace CodeMend

/-- The new text of a document. -/
structure DocumentChange where
  document : DocumentId
  path : String
  before : String
  after : String
  /-- What changed, as ascending edits of the text before. -/
  edits : List TextEdit
deriving Repr

/-- What carrying out a plan leads to. -/
structure PlanOutcome where
  /-- The solution with the new texts. -/
  solution : Solution
  /-- The changed documents, in order. -/
  documents : List DocumentChange
  /-- The number of sites that were left as they are. -/
  skipped : Nat

/-- Nothing changed. -/
def PlanOutcome.isEmpty (o : PlanOutcome) : Bool := o.documents.isEmpty

namespace Execution

/-- Parse the text that a document has come to have. -/
def reparse (path text : String) : Analysis Tree :=
  match parse text with
  | .ok t => .ok t
  | .error e =>
    .error (.verification path (e.fault.message ++ " (line " ++ toString e.position.line ++
      ", column " ++ toString e.position.column ++ ")"))

/-- Where a region lies after a span was replaced by a text of some length: behind the span it moves
with the text, and where it overlaps the span it is stretched over all of the new text. -/
def shiftRegion (replaced : Span) (newLength : Nat) (region : Span) : Span :=
  let newStop := replaced.start + newLength
  if replaced.stop ≤ region.start then
    ⟨region.start - replaced.stop + newStop, region.stop - replaced.stop + newStop⟩
  else if replaced.start < region.stop then
    let stop := if replaced.stop ≤ region.stop then region.stop - replaced.stop + newStop
      else newStop
    ⟨min region.start replaced.start, max stop newStop⟩
  else region

/-- Where regions lie after a replacement. -/
def shiftRegions (regions : List Span) (replaced : Span) (newLength : Nat) : List Span :=
  regions.map (shiftRegion replaced newLength)

/-- A document while its sites are changed. -/
structure Progress where
  log : EditLog
  /-- The regions to tidy, in the current text. -/
  regions : List Span
  skipped : Nat

/-- The last patch first; of two that start together, the one that reaches further. -/
def comparePatches (a b : Patch) : Ordering :=
  (compare b.span.start a.span.start).then (compare b.span.stop a.span.stop)

/-- The first two neighbours that overlap, of patches from the back; the one further to the front
comes first. -/
def overlappingPatches? : List Patch → Option (Span × Span)
  | a :: b :: rest =>
    if a.span.start < b.span.stop then some (b.span, a.span) else overlappingPatches? (b :: rest)
  | _ => none

/-- Carry out one patch. -/
def applyPatch (s : Progress) (patch : Patch) : Except EditError Progress := do
  let log ← s.log.replace patch.span patch.text
  let length := patch.text.utf8ByteSize
  let regions := shiftRegions s.regions patch.span length
  let own := if patch.tidy then [⟨patch.span.start, patch.span.start + length⟩] else []
  return { s with log, regions := regions ++ own }

/-- Carry out the patches of one site, which must not overlap. -/
def applyPatches (t : Tree) (s : Progress) (patches : List Patch) : Analysis Progress :=
  let ordered := sortStable comparePatches patches
  match overlappingPatches? ordered with
  | some (first, second) =>
    let cover := first.cover second
    .error (.internal ("overlapping rewrites at " ++ first.render ++ " and " ++ second.render ++
      " in `" ++ (extract? t.source cover.start cover.stop).getD "" ++ "`"))
  | none => (ordered.foldlM applyPatch s).mapError .edit

/-- The patches of a site, if its node is there and has the form that the fix needs. -/
def sitePatches? (plan : Plan) (t : Tree) (site : Site) : Option (List Patch) := do
  let n ← site.relocate? t
  match site.role with
  | .declaration => plan.rule.declarationPatches? t n plan.parameters
  | .call positions => plan.rule.callPatches? t n positions

/-- Change one site.  A cancelled fix stops here. -/
def changeSite (plan : Plan) (path : String) (cancelled : Bool) (s : Progress) (site : Site) :
    Analysis Progress := do
  if cancelled then .error .cancelled
  let t ← reparse path s.log.current
  match sitePatches? plan t site with
  | some patches => applyPatches t s patches
  | none => return { s with skipped := s.skipped + 1 }

/-- The sites in the order in which they are changed, each once. -/
def orderedSites (sites : List Site) : List Site :=
  dropRepeats (sortStable Site.compareFromBack sites)
where
  /-- Drop what equals its predecessor. -/
  dropRepeats : List Site → List Site
    | a :: b :: rest => if a == b then dropRepeats (b :: rest) else a :: dropRepeats (b :: rest)
    | sites => sites

/-- Tidy the regions, with the edits carried out from the back. -/
def tidyRegions (s : Progress) : Analysis EditLog := do
  let edits ← (layoutEdits s.log.current s.regions).mapError fun e => .layout (.lex e)
  (edits.reverse.foldlM (fun (log : EditLog) e => log.replace e.span e.newText) s.log).mapError
    .edit

/-- The change of a document, if there is any, and the number of skipped sites. -/
def changeDocument (plan : Plan) (d : Document) (sites : List Site) (cancelled : Bool) :
    Analysis (Option DocumentChange × Nat) := do
  let s ← (orderedSites sites).foldlM (changeSite plan d.path cancelled) ⟨.ofText d.text, [], 0⟩
  let log ← tidyRegions s
  let _ ← reparse d.path log.current
  if log.isUnchanged then return (none, s.skipped)
  match log.edits? with
  | some edits => return (some ⟨d.id, d.path, log.base, log.current, edits⟩, s.skipped)
  | none => .error (.edit .brokenRecord)

end Execution

/-- The solution with the new texts of changed documents. -/
def Solution.withChanges (s : Solution) (changes : List DocumentChange) : Analysis Solution :=
  changes.foldlM (fun s c => s.withText c.document c.after) s

/-- Carry out a plan.  Nothing is changed when it fails or is cancelled. -/
def Plan.execute (plan : Plan) (s : Solution) (cancelled : Bool) : Analysis PlanOutcome := do
  let results ← plan.sites.mapM fun (id, sites) => do
    Execution.changeDocument plan (← s.document id) sites cancelled
  if cancelled then .error .cancelled
  let changes := results.filterMap Prod.fst
  let skipped := results.foldr (fun r n => r.2 + n) 0
  return ⟨← s.withChanges changes, changes, skipped⟩

end CodeMend
