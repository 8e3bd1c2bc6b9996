import CodeMend.Model.Symbols
import CodeMend.Tree.Views

/-!
# CodeMend — the index of a program

The types and methods of a solution with what can be looked up about them.  The library comes first;
then every document adds its types, and once all type names are known, the bases and members of
these.  Declarations with one qualified name are parts of one type.

* **`Program.ofSolution`** — the index of a solution.
* **`allBases`**, **`methodsNamed`**, **`findMember?`** — lookup through bases.
* **`lookupType?`**, **`resolveType`** — what a type name or type syntax means at a place.
-/

namespace CodeMend

structure Program where
  solution : Solution
  types : Array TypeSymbol
  methods : Array MethodSymbol
  /-- The namespaces that each document imports. -/
  usings : List (DocumentId × List String)
deriving Inhabited

namespace Program

/-! ## Lookup by number and name

Types, methods and documents are numbered, and found by number or by name. -/

def type? (p : Program) (id : TypeId) : Option TypeSymbol := p.types[id]?

def method? (p : Program) (id : MethodId) : Option MethodSymbol := p.methods[id]?

def document? (p : Program) (id : DocumentId) : Option Document := p.solution.document? id

/-- The type with a qualified name. -/
def typeNamed? (p : Program) (qualifiedName : String) : Option TypeId :=
  p.types.findIdx? fun t => t.qualifiedName == qualifiedName

/-- The type that a node declares. -/
def declaredType? (p : Program) (document : DocumentId) (node : NodeId) : Option TypeId :=
  p.types.findIdx? fun t => t.declarations.contains (document, node)

/-- The method that a node declares. -/
def declaredMethod? (p : Program) (document : DocumentId) (node : NodeId) : Option MethodSymbol :=
  p.methods.find? fun m =>
    m.declaration.any fun d => d.document == document && d.node == node

def qualifiedName (p : Program) (id : TypeId) : String :=
  ((p.type? id).map TypeSymbol.qualifiedName).getD ""

def basesOf (p : Program) (id : TypeId) : List TypeId := ((p.type? id).map TypeSymbol.bases).getD []

def methodsOf (p : Program) (id : TypeId) : List MethodSymbol :=
  (((p.type? id).map TypeSymbol.methods).getD []).filterMap p.method?

/-! ## Bases

A type lists its bases, and these list theirs, in a circle if the source says so.  The walk through
them sees each type once. -/

/-- Take types from a queue, each seen type once, and put the bases of each at the end.  `fuel`
bounds how many are taken. -/
def basesFrom (p : Program) : Nat → List TypeId → List TypeId → List TypeId
  | 0, _, _ => []
  | _ + 1, _, [] => []
  | fuel + 1, seen, id :: queue =>
    if seen.contains id then basesFrom p fuel seen queue
    else id :: basesFrom p fuel (id :: seen) (queue ++ p.basesOf id)

/-- How many types the queue of `allBases` can ever hold. -/
def baseEdges (p : Program) : Nat := (p.types.toList.flatMap TypeSymbol.bases).length

/-- The bases of a type and their bases, the nearest first, without the type itself. -/
def allBases (p : Program) (id : TypeId) : List TypeId :=
  p.basesFrom (p.baseEdges + 1) [id] (p.basesOf id)

/-- The type and all its bases, the nearest first. -/
def withBases (p : Program) (id : TypeId) : List TypeId := id :: p.allBases id

/-- Add a method unless one with the same signature was found before. -/
def addUnlessHidden (found : List MethodSymbol) (m : MethodSymbol) : List MethodSymbol :=
  if found.any fun f => f.signature == m.signature then found else found ++ [m]

/-- The methods of a name on a type and its bases.  A method hides those further up with the same
signature. -/
def methodsNamed (p : Program) (id : TypeId) (name : String) : List MethodId :=
  (((p.withBases id).flatMap p.methodsOf).filter fun m => m.name == name).foldl
    addUnlessHidden [] |>.map MethodSymbol.id

/-- The field or property of a name on a type or its bases, with the type that declares it. -/
def findMember? (p : Program) (id : TypeId) (name : String) : Option (TypeId × MemberSymbol) :=
  (p.withBases id).findSome? fun t =>
    ((p.type? t).bind fun s => s.member? name).map fun m => (t, m)

/-! ## Names in the source

A name in a source means a type by where it stands: types around it come first, then namespaces,
then what is imported. -/

/-- Append the name that a node writes, type arguments left out; `fuel` bounds the nesting. -/
def typeNameFuel (t : Tree) : Nat → NodeId → String
  | 0, _ => ""
  | fuel + 1, n =>
    match t.kind n with
    | .identifierName | .genericName => (t.token (t.firstToken n)).valueText
    | .qualifiedName =>
      String.join ((t.children n).map fun
        | .node c => typeNameFuel t fuel c
        | .token i => (t.token i).text)
    | _ => Unicode.compact (t.text n)

/-- The name that a node writes, without type arguments and without the mark of the outermost
namespace. -/
def typeName (t : Tree) (n : NodeId) : String :=
  Primitive.dropFront "global::" (typeNameFuel t (t.nodeCount + 1) n)

/-- The namespace around a node, with points between its parts. -/
def namespaceOf (t : Tree) (n : NodeId) : String :=
  let names := ((t.ancestors n).filter fun a =>
    t.kind a == .namespaceDeclaration || t.kind a == .fileScopedNamespaceDeclaration).filterMap
      fun a => (t.childNodes a).head?.map fun c => Unicode.compact (t.text c)
  String.intercalate "." names.reverse

/-- A namespace and the ones around it, the innermost first and the one without a name last. -/
def enclosingNamespaces (name : String) : List String :=
  if name.isEmpty then [""]
  else
    let parts := (pieces '.' name.toList).map String.ofList
    ((List.range parts.length).map fun k =>
      String.intercalate "." (parts.take (parts.length - k))) ++ [""]

/-- A name inside a namespace. -/
def qualify (namespaceName name : String) : String :=
  if namespaceName.isEmpty then name else namespaceName ++ "." ++ name

/-- The type that a name means at a node: a type nested in one of the enclosing types, then one in
an enclosing namespace, then one in an imported namespace. -/
def lookupType? (p : Program) (d : Document) (context : NodeId) (name : String) : Option TypeId :=
  let t := d.tree
  let name := Primitive.dropFront "global::" name
  let nested := (context :: t.ancestors context).findSome? fun a => do
    let outer ← p.declaredType? d.id a
    p.typeNamed? (p.qualifiedName outer ++ "." ++ name)
  -- From the inside out: types nested in those around, then namespaces, then those that the file
  -- uses.
  match nested with
  | some id => some id
  | none =>
    match (enclosingNamespaces (namespaceOf t context)).findSome? fun ns =>
        p.typeNamed? (qualify ns name) with
    | some id => some id
    | none =>
      ((p.usings.lookup d.id).getD []).findSome? fun ns => p.typeNamed? (ns ++ "." ++ name)

/-- Something around a node declares a type parameter of a name. -/
def typeParameterInScope (t : Tree) (n : NodeId) (name : String) : Bool :=
  ((t.ancestors n).filterMap fun a => t.childOfKind? a .typeParameterList).any fun list =>
    (t.childTokens list).any fun i => (t.token i).isIdentifier && (t.token i).valueText == name

/-- Arrays over arrays over an element. -/
def nestArrays : Nat → StaticType → StaticType
  | 0, element => element
  | n + 1, element => nestArrays n (.array element)

/-- A type that may be without a value; only numbers and truth values become another type. -/
def makeNullable (element : StaticType) : StaticType :=
  match element with
  | .primitive q => if q.isNumeric || q == .bool then .nullable element else element
  | _ => element

/-- The type of a name at a node. -/
def resolveName (p : Program) (d : Document) (n : NodeId) : StaticType :=
  let t := d.tree
  let name := typeName t n
  if typeParameterInScope t n name then .unknown
  else
    match p.lookupType? d n name with
    | some id => .named (p.qualifiedName id)
    | none =>
      match Primitive.ofFrameworkName? name with
      | some q => .primitive q
      | none =>
        if t.kind n == .genericName then .named (Unicode.compact (t.text n)) else .named name

/-- The type that a node writes; `fuel` bounds the nesting. -/
def resolveTypeFuel (p : Program) (d : Document) : Nat → NodeId → StaticType
  | 0, _ => .unknown
  | fuel + 1, n =>
    let t := d.tree
    match t.kind n with
    | .predefinedType =>
      let text := t.text n
      if text == "void" then .void
      else ((Primitive.ofKeyword? text).map StaticType.primitive).getD .unknown
    | .nullableType =>
      match t.childNodes n with
      | c :: _ => makeNullable (resolveTypeFuel p d fuel c)
      | [] => .unknown
    | .arrayType =>
      match t.childNodes n with
      | c :: _ =>
        nestArrays (t.childrenOfKind n .arrayRankSpecifier).length (resolveTypeFuel p d fuel c)
      | [] => .unknown
    | .tupleType =>
      .tuple ((t.childrenOfKind n .tupleElement).map fun e =>
        match t.childNodes e with
        | c :: _ => resolveTypeFuel p d fuel c
        | [] => .unknown)
    | .identifierName | .genericName | .qualifiedName => p.resolveName d n
    | _ => .unknown

/-- The type that a node writes. -/
def resolveType (p : Program) (d : Document) (n : NodeId) : StaticType :=
  p.resolveTypeFuel d (d.tree.nodeCount + 1) n

/-- The type that a node writes, unknown when there is no node. -/
def resolveOptional (p : Program) (d : Document) (n : Option NodeId) : StaticType :=
  (n.map (p.resolveType d)).getD .unknown

/-! ## Building: types

In a first pass all types are registered, so that every name can be found by the time that bases and
members are read. -/

/-- Add a type without declarations, and tell its number. -/
def addType (p : Program) (name qualifiedName : String) (kind : TypeKind) : Program × TypeId :=
  let id := p.types.size
  ({ p with types := p.types.push ⟨id, name, qualifiedName, kind, [], [], [], []⟩ }, id)

/-- Add a method to its type.  Methods are numbered in the order in which they are added. -/
def addMethod (p : Program) (m : MethodSymbol) : Program :=
  let id := p.methods.size
  { p with
    methods := p.methods.push { m with id := id }
    types := p.types.modify m.containingType fun t => { t with methods := t.methods ++ [id] } }

/-- The symbol of a method of the library. -/
def librarySymbol (type : TypeId) (m : LibraryMethod) : MethodSymbol where
  id := 0
  name := m.name
  containingType := type
  parameters := m.parameters.map fun t => ⟨"value", t, .value, false, false, 0, false, none⟩
  returnType := m.returnType
  typeParameterCount := 0
  modifiers := { isStatic := true }
  accessibility := .publicAccess
  explicitInterface := none
  hasBody := true
  declaration := none

def addLibraryType (p : Program) (l : LibraryType) : Program :=
  let (p, id) := p.addType l.name (l.namespaceName ++ "." ++ l.name) .classType
  l.methods.foldl (fun p m => p.addMethod (librarySymbol id m)) p

/-- The namespaces that a document imports as a whole. -/
def importedNamespaces (t : Tree) : List String :=
  ((t.descendants Tree.root).filter fun n =>
    t.kind n == .usingDirective && (t.childToken? n "static").isNone &&
      (t.childToken? n "=").isNone).filterMap fun n =>
    (t.childNodes n).head?.map fun c =>
      Primitive.dropFront "global::" (Unicode.compact (t.text c))

def kindOfDeclaration : NodeKind → TypeKind
  | .structDeclaration => .structType
  | .interfaceDeclaration => .interfaceType
  | .recordDeclaration => .recordType
  | _ => .classType

/-- The first identifier behind the keyword of a type declaration. -/
def nameAfterKeyword (t : Tree) : Bool → List TokenId → Option String
  | _, [] => none
  | seen, i :: is =>
    let token := t.token i
    if seen && token.isIdentifier then some token.valueText
    else
      nameAfterKeyword t (seen || token.isKeyword "class" || token.isKeyword "struct" ||
        token.isKeyword "interface" || token.isContextual "record") is

/-- Register the type that a node declares.  An enclosing type is registered before. -/
def registerType (d : Document) (p : Program) (n : NodeId) : Program :=
  let t := d.tree
  if !(t.kind n).isTypeDeclaration then p
  else
    match nameAfterKeyword t false (t.childTokens n) with
    | none => p
    | some name =>
      let outer := match (t.ancestors n).findSome? (p.declaredType? d.id) with
        | some id => p.qualifiedName id
        | none => namespaceOf t n
      let qualified := qualify outer name
      -- A declaration of a name that is known joins its type.
      let (p, id) := match p.typeNamed? qualified with
        | some id => (p, id)
        | none => p.addType name qualified (kindOfDeclaration (t.kind n))
      { p with types := p.types.modify id fun s =>
          { s with declarations := s.declarations ++ [(d.id, n)] } }

/-- Register the imports and the types of a document. -/
def registerDocument (p : Program) (d : Document) : Program :=
  let p := { p with usings := p.usings ++ [(d.id, importedNamespaces d.tree)] }
  (d.tree.descendants Tree.root).foldl (registerType d) p

/-! ## Building: members

In a second pass the declarations of each type are read for what they list. -/

/-- The symbol of a parameter. -/
def parameterSymbol (p : Program) (d : Document) (v : ParameterView) : ParameterSymbol :=
  let words := v.modifiers.map fun i => (d.tree.token i).text
  { name := v.nameText d.tree
    type := p.resolveOptional d v.typeNode
    mode := (words.findSome? PassMode.ofKeyword?).getD .value
    isParams := words.contains "params"
    hasDefault := v.defaultValue.isSome
    modifierCount := words.length
    hasAttributes := !v.attributes.isEmpty
    declaredVariable := some ⟨d.id, (d.tree.token v.name).offset⟩ }

/-- The symbol of the method that a node of a type declares. -/
def methodSymbol? (p : Program) (d : Document) (type : TypeId) (kind : TypeKind) (n : NodeId) :
    Option MethodSymbol := do
  let t := d.tree
  let v ← MethodView.ofNode? t n
  let words := v.modifiers.map fun i => (t.token i).text
  let explicitInterface := do
    let name ← (t.childNodes (← v.explicitInterface)).head?
    return typeName t name
  return {
    id := 0
    name := v.nameText t
    containingType := type
    parameters := ((v.parameters t).items.filterMap (ParameterView.ofNode? t)).map
      (p.parameterSymbol d)
    returnType := p.resolveType d v.returnType
    typeParameterCount := (v.typeParameters.map fun list =>
      (t.childTokens list).countP fun i => (t.token i).isIdentifier).getD 0
    modifiers := {
      isStatic := words.contains "static"
      isVirtual := words.contains "virtual"
      isOverride := words.contains "override"
      isAbstract := words.contains "abstract"
      isExtern := words.contains "extern" }
    -- Members of an interface are public unless they say otherwise.
    accessibility :=
      if explicitInterface.isSome then .notApplicable
      else .ofModifiers words (if kind == .interfaceType then .publicAccess else .privateAccess)
    explicitInterface := explicitInterface
    hasBody := v.body.isSome || v.arrow.isSome
    declaration := some ⟨d.id, n, t.span n⟩ }

/-- The fields that a node declares. -/
def fieldMembers (p : Program) (d : Document) (n : NodeId) : List MemberSymbol :=
  let t := d.tree
  match t.childOfKind? n .variableDeclaration with
  | none => []
  | some declaration =>
    let type := p.resolveOptional d (t.childNodes declaration).head?
    let isStatic := (t.childTokens n).any fun i => ["static", "const"].contains (t.token i).text
    ((t.childrenOfKind declaration .variableDeclarator).filterMap fun c =>
      (t.childTokens c).head?).map fun i => ⟨(t.token i).valueText, type, isStatic⟩

/-- The property that a node declares.  Its name stands behind its type. -/
def propertyMember? (p : Program) (d : Document) (n : NodeId) : Option MemberSymbol := do
  let t := d.tree
  let type ← (t.childNodes n).find? fun c => (t.kind c).isType
  let name ← (t.childTokens n).find? fun i =>
    (t.token i).offset > (t.span type).stop && (t.token i).isIdentifier
  return ⟨(t.token name).valueText, p.resolveType d type, (t.childToken? n "static").isSome⟩

/-- The bases that a type declaration lists. -/
def listedBases (p : Program) (d : Document) (n : NodeId) : List TypeId :=
  let t := d.tree
  match t.childOfKind? n .baseList with
  | none => []
  | some list =>
    ((t.childNodes list).filter fun b => (t.kind b).isType).filterMap fun b =>
      p.lookupType? d n (typeName t b)

/-- The members that the parameters of a type declaration make. -/
def parameterMembers (p : Program) (d : Document) (n : NodeId) : List MemberSymbol :=
  let t := d.tree
  match t.childOfKind? n .parameterList with
  | none => []
  | some list =>
    ((t.childrenOfKind list .parameter).filterMap (ParameterView.ofNode? t)).map fun v =>
      ⟨v.nameText t, p.resolveOptional d v.typeNode, false⟩

/-- The fields and properties that a node below a type declaration makes. -/
def membersOf (p : Program) (d : Document) (n : NodeId) : List MemberSymbol :=
  match d.tree.kind n with
  | .fieldDeclaration => p.fieldMembers d n
  | .propertyDeclaration => (p.propertyMember? d n).toList
  | _ => []

/-- Add a base to a type, unless it is the type itself or there already. -/
def addBase (id : TypeId) (bases : List TypeId) (base : TypeId) : List TypeId :=
  if base != id && !bases.contains base then bases ++ [base] else bases

/-- Index the bases and members that a declaration gives to its type. -/
def indexDeclaration (d : Document) (p : Program) (declaration : NodeId × TypeId) : Program :=
  let (n, id) := declaration
  let t := d.tree
  let kind := ((p.type? id).map TypeSymbol.kind).getD .classType
  let bases := p.listedBases d n
  let members := p.parameterMembers d n ++ (t.childNodes n).flatMap (p.membersOf d)
  let methods := ((t.childNodes n).filter fun c => t.kind c == .methodDeclaration).filterMap
    (p.methodSymbol? d id kind)
  let p := { p with types := p.types.modify id fun s =>
    { s with bases := bases.foldl (addBase id) s.bases, members := s.members ++ members } }
  methods.foldl addMethod p

/-- Index the bases and members of the types of a document. -/
def indexDocument (p : Program) (d : Document) : Program :=
  let declarations := (d.tree.descendants Tree.root).filterMap fun n =>
    (p.declaredType? d.id n).map fun id => (n, id)
  declarations.foldl (indexDeclaration d) p

/-- The index of a solution. -/
def ofSolution (s : Solution) : Program :=
  let p := LibraryType.all.foldl addLibraryType ⟨s, #[], #[], []⟩
  s.documents.foldl indexDocument (s.documents.foldl registerDocument p)

/-! ## Interfaces

Whether a method implements one of an interface decides about what may be changed in it. -/

/-- Some declaration of the type has type parameters. -/
def isGeneric (p : Program) (id : TypeId) : Bool :=
  (((p.type? id).map TypeSymbol.declarations).getD []).any fun (document, n) =>
    (p.document? document).any fun d => (d.tree.childOfKind? n .typeParameterList).isSome

/-- A method of an interface is one that `m` implements.  Type arguments are not tracked, so with
them only the pass modes are compared. -/
def implementedBy (m : MethodSymbol) (generic : Bool) (i : MethodSymbol) : Bool :=
  i.name == m.name &&
    (if generic || i.typeParameterCount > 0 then
      i.parameters.map ParameterSymbol.mode == m.parameters.map ParameterSymbol.mode
    else i.signature == m.signature)

/-- The method implements an interface: by name, or because it is not private and matches a method
of an interface among the bases of its type. -/
def implementsInterface (p : Program) (id : MethodId) : Bool :=
  match p.method? id with
  | none => false
  | some m =>
    m.explicitInterface.isSome ||
      (m.accessibility != .privateAccess && m.accessibility != .notApplicable &&
        (p.allBases m.containingType).any fun base =>
          (p.type? base).any (fun s => s.kind == .interfaceType) &&
            (p.methodsOf base).any (implementedBy m (p.isGeneric base)))

end Program

end CodeMend
