import CodeMend.Model.Solution
import CodeMend.Model.StaticType

/-!
# CodeMend — symbols

What a program declares: types, methods with their parameters, fields and properties, and the
variables of a method.
-/

namespace CodeMend

/-- The number of a method in its program. -/
abbrev MethodId := Nat

/-- The number of a type in its program. -/
abbrev TypeId := Nat

/-- A parameter or local variable: the document and the offset of the name that declares it. -/
structure VariableId where
  document : DocumentId
  offset : Nat
deriving DecidableEq, Repr, Inhabited

/-- Variables are ordered by document, then by offset. -/
def VariableId.compare (a b : VariableId) : Ordering :=
  (Ord.compare a.document b.document).then (Ord.compare a.offset b.offset)

/-- How an argument is passed. -/
inductive PassMode where
  | value
  | ref
  | out
  | input
deriving DecidableEq, Repr

namespace PassMode

def ofKeyword? : String → Option PassMode
  | "ref" => some .ref
  | "out" => some .out
  | "in" => some .input
  | _ => none

end PassMode

structure ParameterSymbol where
  name : String
  type : StaticType
  mode : PassMode
  /-- The parameter collects all further arguments. -/
  isParams : Bool
  hasDefault : Bool
  /-- The number of all modifiers. -/
  modifierCount : Nat
  hasAttributes : Bool
  /-- The variable; there is none for methods without source. -/
  declaredVariable : Option VariableId
deriving DecidableEq, Repr

inductive Accessibility where
  | publicAccess
  | internalAccess
  | protectedAccess
  | protectedInternal
  | privateProtected
  | privateAccess
  /-- The method implements an interface by name. -/
  | notApplicable
deriving DecidableEq, Repr

/-- The accessibility that modifiers give, or else the one by default. -/
def Accessibility.ofModifiers (words : List String) (byDefault : Accessibility) : Accessibility :=
  let isPublic := words.contains "public"
  let isInternal := words.contains "internal"
  let isProtected := words.contains "protected"
  let isPrivate := words.contains "private"
  if isPublic then .publicAccess
  else if isInternal && isProtected then .protectedInternal
  else if isProtected && isPrivate then .privateProtected
  else if isInternal then .internalAccess
  else if isProtected then .protectedAccess
  else if isPrivate then .privateAccess
  else byDefault

/-- Where a method is declared. -/
structure Declaration where
  document : DocumentId
  node : NodeId
  span : Span
deriving DecidableEq, Repr

structure MethodModifiers where
  isStatic : Bool := false
  isVirtual : Bool := false
  isOverride : Bool := false
  isAbstract : Bool := false
  isExtern : Bool := false
deriving DecidableEq, Repr

structure MethodSymbol where
  id : MethodId
  name : String
  containingType : TypeId
  parameters : List ParameterSymbol
  returnType : StaticType
  typeParameterCount : Nat
  modifiers : MethodModifiers
  accessibility : Accessibility
  /-- The interface in front of the name. -/
  explicitInterface : Option String
  hasBody : Bool
  /-- The declaration; there is none for methods without source. -/
  declaration : Option Declaration
deriving DecidableEq, Repr

/-- The types and pass modes of the parameters: what tells overloads of one name apart. -/
def MethodSymbol.signature (m : MethodSymbol) : List (StaticType × PassMode) :=
  m.parameters.map fun p => (p.type, p.mode)

inductive TypeKind where
  | classType
  | structType
  | interfaceType
  | recordType
deriving DecidableEq, Repr

/-- A field or property. -/
structure MemberSymbol where
  name : String
  type : StaticType
  isStatic : Bool
deriving DecidableEq, Repr

structure TypeSymbol where
  id : TypeId
  name : String
  /-- The name with the namespace and the enclosing types in front. -/
  qualifiedName : String
  kind : TypeKind
  bases : List TypeId
  methods : List MethodId
  members : List MemberSymbol
  /-- All declarations; a type may be declared in parts. -/
  declarations : List (DocumentId × NodeId)
deriving DecidableEq, Repr

def TypeSymbol.member? (t : TypeSymbol) (name : String) : Option MemberSymbol :=
  t.members.find? fun m => m.name == name

inductive VariableKind where
  | parameter
  | local
deriving DecidableEq, Repr

structure VariableSymbol where
  id : VariableId
  name : String
  type : StaticType
  kind : VariableKind
deriving DecidableEq, Repr

/-- What a name or an expression refers to. -/
inductive Symbol where
  | method (id : MethodId)
  | type (id : TypeId)
  | var (v : VariableSymbol)
  | member (owner : TypeId) (m : MemberSymbol)
deriving DecidableEq, Repr

end CodeMend
