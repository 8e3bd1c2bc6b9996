import CodeMend.Grammar.Scan

/-!
# CodeMend — the grammar of types

Predefined types, names with qualifiers and type arguments, tuples, and the question marks and array
brackets behind them.
-/

namespace CodeMend.Grammar

open CodeMend.Parser

/-- Type arguments in angle brackets. -/
def typeArgumentList (rules : Rules) : Parser Shape :=
  node .typeArgumentList (seq [expect "<", commaSeparated (one (rules (.type true))), expect ">"])

/-- A name with or without type arguments. -/
def simpleTypeName (rules : Rules) : Parser Shape := choose fun c =>
  if !c.atIdentifier then unexpected "type name"
  else if (Scan.typeArguments? c.tokens (c.pos + 1)).isSome then
    node .genericName (seq [bump, one (typeArgumentList rules)])
  else node .identifierName bump

/-- A name with its qualifiers. -/
def typeName (rules : Rules) : Parser Shape := do
  let cp ← checkpoint
  let first ← simpleTypeName rules
  grow (fun c =>
    if (c.atMark "." || c.atMark "::") && (c.nth 1).isIdentifier then
      some fun front =>
        nodeAt cp .qualifiedName (seq [pure [front], bump, one (simpleTypeName rules)])
    else none) first

/-- An element of a tuple type, with or without a name. -/
def tupleTypeElement (rules : Rules) : Parser Shape :=
  node .tupleElement (seq [one (rules (.type true)), whenAt (·.atIdentifier) bump])

def tupleType (rules : Rules) : Parser Shape :=
  node .tupleType
    (seq [expect "(", commaSeparated (one (tupleTypeElement rules)), expect ")"])

/-- Brackets without sizes stand ahead. -/
def atEmptyRank (c : Cursor) : Bool :=
  c.atMark "[" && (Scan.emptyRank? c.tokens c.pos).isSome

/-- Brackets without sizes. -/
def emptyRank : Parser Shape :=
  node .arrayRankSpecifier (seq [bump, manyWhile (·.atMark ",") bump, expect "]"])

/-- What makes a nullable or an array type of the type before it, which was built since a
checkpoint. -/
def typeSuffix? (nullable : Bool) (cp : Checkpoint) (c : Cursor) :
    Option (Shape → Parser Shape) :=
  if nullable && c.atMark "?" then
    some fun element => nodeAt cp .nullableType (seq [pure [element], bump])
  else if atEmptyRank c then
    some fun element =>
      nodeAt cp .arrayType (seq [pure [element], manyWhile atEmptyRank (one emptyRank)])
  else none

/-- A type.  `nullable` tells whether a question mark behind it belongs to it. -/
def type (rules : Rules) (nullable : Bool) : Parser Shape := do
  let cp ← checkpoint
  let c ← get
  let base ←
    if c.atMark "(" then tupleType rules
    else if c.current.isPredefinedType then node .predefinedType bump
    else typeName rules
  grow (typeSuffix? nullable cp) base

end CodeMend.Grammar
