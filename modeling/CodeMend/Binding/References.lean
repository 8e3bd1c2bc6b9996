import CodeMend.Binding.Binder
import CodeMend.Token.Interpolation

/-!
# CodeMend — references to a method

Every use of a method in a solution: calls, uses of its name as a value, names in the holes of
interpolated strings, and calls by its name that could not be bound and may be calls of it.  They
are ordered by document and by offset; the declaration itself is not among them.
-/

namespace CodeMend

/-- The part that a reference plays. -/
inductive ReferenceRole where
  /-- The name is called. -/
  | invocationCallee
  /-- Any other use. -/
  | other
  /-- The call has the name of the method and a fitting number of arguments, but was not bound. -/
  | unresolved
deriving DecidableEq, Repr

structure MethodReference where
  document : DocumentId
  /-- The span of the name. -/
  span : Span
  role : ReferenceRole
  /-- The call, when the name is called. -/
  invocation : Option NodeId
deriving DecidableEq, Repr

namespace References

/-- A call with this many arguments may bind to the method. -/
def acceptsCount (m : MethodSymbol) (count : Nat) : Bool :=
  let required := m.parameters.countP fun p => !p.hasDefault && !p.isParams
  required ≤ count && (m.parameters.any ParameterSymbol.isParams || count ≤ m.parameters.length)

/-- The part that a call plays which names the method, by the method that it is bound to. -/
def callRole? (m : MethodSymbol) (v : InvocationView) : Option MethodId → Option ReferenceRole
  | some found => if found == m.id then some .invocationCallee else none
  | none => if acceptsCount m v.arguments.items.length then some .unresolved else none

/-- The reference that a call makes.  A call that names something else is not bound. -/
def ofInvocation? (b : Binder) (m : MethodSymbol) (invocation : NodeId) :
    Analysis (Option MethodReference) := do
  let t := b.tree
  let named? := (InvocationView.ofNode? t invocation).bind fun v =>
    (v.nameToken? t).map fun name => (v, name)
  match named? with
  | none => return none
  | some (v, name) =>
    if (t.token name).valueText != m.name then return none
    else
      let role? := callRole? m v (← b.resolveInvocation? invocation)
      return role?.map fun role => ⟨b.document.id, (t.token name).span, role, some invocation⟩

/-- The node names what a call calls. -/
def isCalleeName (t : Tree) (n : NodeId) : Bool :=
  match t.parent? n with
  | none => false
  | some p =>
    let callee :=
      if t.kind p == .memberAccessExpression || t.kind p == .memberBindingExpression then p else n
    (t.parent? callee).any fun q =>
      t.kind q == .invocationExpression && (t.childNodes q).head? == some callee

/-- The expression that a name stands for: behind a point, the whole member access.  Labels and
names in front of a point stand for none. -/
def namedExpression? (t : Tree) (n : NodeId) : Option NodeId := do
  let p ← t.parent? n
  match t.kind p with
  | .nameColon => none
  | .memberAccessExpression => if (t.childNodes p).head? == some n then none else some p
  | _ => some n

/-- The reference that a name makes when it is used as a value. -/
def ofName? (b : Binder) (m : MethodSymbol) (n : NodeId) : Analysis (Option MethodReference) := do
  let t := b.tree
  let token := t.token (t.firstToken n)
  if token.valueText != m.name || isCalleeName t n then return none
  else
    match namedExpression? t n with
    | none => return none
    | some e =>
      return if (← b.referencedSymbol? e) == some (.method m.id) then
        some ⟨b.document.id, token.span, .other, none⟩
      else none

/-- The references that the holes of a literal make. -/
def ofLiteral (b : Binder) (m : MethodSymbol) (literal : NodeId) : List MethodReference :=
  let t := b.tree
  let text := t.text literal
  if !Interpolation.isInterpolated text.toList || !occursIn m.name.toList text.toList then []
  else if !(b.methodsInScope m.name literal).contains m.id then []
  else
    let start := (t.span literal).start
    ((Interpolation.namesInHoles text).filter fun h =>
      h.name == m.name && h.called && !h.afterPoint).map fun h =>
        let place := start + h.offset
        ⟨b.document.id, ⟨place, place + h.name.utf8ByteSize⟩, .other, none⟩

/-- The references that a node makes by itself. -/
def ofNode (b : Binder) (m : MethodSymbol) (n : NodeId) : Analysis (List MethodReference) := do
  match b.tree.kind n with
  | .invocationExpression => return (← ofInvocation? b m n).toList
  | .identifierName | .genericName => return (← ofName? b m n).toList
  | .literalExpression => return ofLiteral b m n
  | _ => return []

/-- The references in a document, ordered by offset. -/
def inDocument (p : Program) (m : MethodSymbol) (d : Document) :
    Analysis (List MethodReference) := do
  if occursIn m.name.toList d.text.toList then
    let found ← (d.tree.descendants Tree.root).mapM (ofNode (Binder.ofDocument p d) m)
    return sortStable (fun r s => compare r.span.start s.span.start) found.flatten
  else return []

/-- The references in some documents.  A cancelled search stops before the next document. -/
def inDocuments (p : Program) (m : MethodSymbol) (cancelled : Bool) :
    List Document → Analysis (List MethodReference)
  | [] => .ok []
  | d :: rest =>
    if cancelled then .error .cancelled
    else do
      return (← inDocument p m d) ++ (← inDocuments p m cancelled rest)

end References

/-- All references to a method. -/
def Program.findReferences (p : Program) (method : MethodId) (cancelled : Bool) :
    Analysis (List MethodReference) :=
  match p.method? method with
  | some m => References.inDocuments p m cancelled p.solution.documents
  | none => .error (.internal "unknown method")

end CodeMend
