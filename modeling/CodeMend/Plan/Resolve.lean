import CodeMend.Binding.References
import CodeMend.Check.Signature
import CodeMend.Plan.Anchor
import CodeMend.Plan.Basic

/-!
# CodeMend — planning a fix

From a finding to all nodes that its fix changes.  The fix of an expression changes one node.  The
fix of a signature changes the declaration and every call that passes the affected arguments in the
expected way; when a call may have been missed, there is no plan.

* **`argumentFor?`** — the argument that a call passes to a parameter.
* **`Plan.resolve`** — the plan of a finding.
-/

namespace CodeMend

namespace Resolve

/-- The position of the argument for a parameter: the one under its label, or else the one at its
index if that has no label. -/
def argumentFor? (t : Tree) (arguments : List ArgumentView) (index : Nat) (name : String) :
    Option Nat :=
  match arguments.findIdx? fun a => a.name? t == some name with
  | some position => some position
  | none => do
    let a ← arguments[index]?
    if a.nameColon.isNone then return index else none

/-- The argument is passed in the way that the fix of a rule expects. -/
def argumentFits (t : Tree) (rule : Rule) (a : ArgumentView) : Bool :=
  match rule with
  | .unneededRef | .refAsOut =>
    a.refKindText? t == some "ref" && t.kind a.expression == .identifierName
  | .outAsResult | .outsAsTuple => a.refKindText? t == some "out"
  | .duplicateCall | .redundantConversion => false

/-- The positions of the arguments for some parameters, if all of them fit. -/
def argumentPositions? (t : Tree) (rule : Rule) (arguments : List ArgumentView)
    (parameters : List (Nat × String)) : Option (List Nat) :=
  parameters.mapM fun (index, name) => do
    let position ← argumentFor? t arguments index name
    if argumentFits t rule (← arguments[position]?) then return position else none

/-- The site of a call that a fix can follow. -/
def callSite? (t : Tree) (rule : Rule) (parameters : List (Nat × String)) (r : MethodReference) :
    Option Site := do
  if r.role != .invocationCallee then none
  let invocation ← r.invocation
  let v ← InvocationView.ofNode? t invocation
  let positions ← argumentPositions? t rule (v.argumentViews t) parameters
  return Site.ofNode t invocation (.call positions)

/-- Every call of the method is known: none of its references is an unbound call, and no skipped
file mentions it. -/
def ensureComplete (s : Solution) (method : String) (references : List MethodReference) :
    Analysis Unit := do
  match references.find? fun r => r.role == .unresolved with
  | some r =>
    let d ← s.document r.document
    let p := Position.ofOffset d.text r.span.start
    .error (.unboundCallSite method d.path
      ("call at " ++ toString p.line ++ ":" ++ toString p.column ++ " could not be bound"))
  | none =>
    -- A file that does not parse may hold a call, if the name stands in it.
    match s.skipped.find? fun d => d.mentions method with
    | some d => .error (.unboundCallSite method d.path "file does not parse")
    | none => .ok ()

/-- The plan of a fix that changes the signature of a method. -/
def signaturePlan (p : Program) (rule : Rule) (d : Document) (node : NodeId)
    (indices : List Nat) (cancelled : Bool) : Analysis Plan := do
  let m ← match p.declaredMethod? d.id node with
    | some m => .ok m
    | none => .error (.internal ("no symbol for method declaration in " ++ d.path))
  let names ← match indices.mapM fun i => m.parameters[i]?.map ParameterSymbol.name with
    | some names => .ok names
    | none =>
      .error (.internal ("method " ++ m.name ++ " has fewer parameters than its declaration"))
  let references ← p.findReferences m.id cancelled
  -- Nothing is changed unless every call is known.
  ensureComplete p.solution m.name references
  let declaration : ByDocument Site := [(d.id, [Site.ofNode d.tree node .declaration])]
  let sites ← references.foldlM (fun sites r => do
    let there ← p.solution.document r.document
    match callSite? there.tree rule (indices.zip names) r with
    | some site => return sites.append r.document [site]
    | none => return sites) declaration
  return ⟨rule, some m.id, indices, sites⟩

/-- The plan of a fix that changes a single node. -/
def singlePlan (f : Finding) (t : Tree) (n : NodeId) : Plan :=
  ⟨f.rule, none, [], [(f.document, [Site.ofNode t n .declaration])]⟩

/-- The indices of the parameters that are given out. -/
def outIndices (t : Tree) (parameters : SeparatedList) : List Nat :=
  (parameters.items.zipIdx.filter fun (n, _) =>
    (ParameterView.ofNode? t n).any fun v => v.singleModifier? t == some "out").map Prod.snd

end Resolve

open Resolve in
/-- The plan of the fix for a finding of this program.  An anchor that does not stand for what the
rule reports is an error. -/
def Plan.resolve (p : Program) (f : Finding) (cancelled : Bool) : Analysis Plan := do
  let d ← p.solution.document f.document
  let t := d.tree
  let stale : Analysis Plan := .error (.internal (f.rule.id ++ " finding at " ++ f.span.render ++
    " in " ++ d.path ++ " does not match the source"))
  -- A finding is looked for again by its anchor, which a change of the source may have moved.
  match f.rule with
  | .unneededRef | .refAsOut | .outAsResult =>
    match Anchor.parameter? t f.span with
    | some (method, index) => signaturePlan p f.rule d method [index] cancelled
    | none => stale
  | .outsAsTuple =>
    match Anchor.method? t f.span with
    | some v =>
      let indices := outIndices t (v.parameters t)
      if indices.isEmpty then stale else signaturePlan p f.rule d v.node indices cancelled
    | none => stale
  | .duplicateCall =>
    match Anchor.branching? t f.span with
    | some n => return singlePlan f t n
    | none => stale
  | .redundantConversion =>
    match Anchor.invocation? t f.span with
    | some n => return singlePlan f t n
    | none => stale

end CodeMend
