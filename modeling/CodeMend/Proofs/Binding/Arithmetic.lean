import CodeMend.Proofs.Binding.Typing

/-!
# CodeMend — the types of arithmetic

The types that the language gives to expressions of literals, variables, operators, casts and
conditionals over the built-in types.  An operator stands for a family of predefined ones, each with
its own parameters, and the operands choose among these as arguments choose among methods: a
predefined operator is a candidate if the operands convert to its parameters, and it is the one that
is meant if it is better than every other candidate.  A constant converts to more types than its own
type does, if its value is among theirs.

* **`Operand`**, **`resolve`** — operands, and the predefined operator that they choose.
* **`Expr`**, **`Expr.type?`** — expressions and their types.
* **`Expr.read?`** — the expression that a node of a tree spells.

What the constant expressions are and which values they have is left open: `constant?` tells it.
-/

namespace CodeMend

namespace Primitive

/-! ## Conversions

Integral types are ranges of values, and one converts to another when its range lies inside.
Everything about conversion of constants and about which of two targets is the better one is stated
by these ranges, as the language does. -/

/-- The least and the greatest value of an integral type. -/
def range? : Primitive → Option (Int × Int)
  | .sbyte => some (-128, 127)
  | .byte => some (0, 255)
  | .short => some (-32768, 32767)
  | .ushort => some (0, 65535)
  | .char => some (0, 65535)
  | .int => some (-2147483648, 2147483647)
  | .uint => some (0, 4294967295)
  | .long => some (-9223372036854775808, 9223372036854775807)
  | .ulong => some (0, 18446744073709551615)
  | _ => none

/-- The value is one of the integral type. -/
def hasValue (p : Primitive) (v : Int) : Bool :=
  p.range?.any fun (low, high) => decide (low ≤ v) && decide (v ≤ high)

/-- The implicit conversions.  An integral type converts to one that has all of its values, but none
does to a character, and to every real type; every type converts to that of all objects. -/
def converts (p q : Primitive) : Bool :=
  p == q || q == .object ||
    match p.range?, q.range? with
    | some (low, high), some _ => q != .char && q.hasValue low && q.hasValue high
    | some _, none => q == .float || q == .double || q == .decimal
    | none, _ => p == .float && q == .double

end Primitive

/-- An operand: its type and, if it is a constant of an integral type, its value. -/
structure Operand where
  type : Primitive
  constant : Option Int
deriving DecidableEq, Repr

namespace Operand

/-- The integral types that constants of a type convert to besides. -/
def constantTargets : Primitive → List Primitive
  | .int => [.sbyte, .byte, .short, .ushort, .uint, .ulong]
  | .long => [.ulong]
  | _ => []

/-- The value of a constant is one of the type. -/
def fits (x : Operand) (q : Primitive) : Bool :=
  (constantTargets x.type).contains q && x.constant.any q.hasValue

def converts (x : Operand) (q : Primitive) : Bool := x.type.converts q || x.fits q

/-- The types without a sign that a type with a sign is preferred to. -/
def unsignedRivals : Primitive → List Primitive
  | .sbyte => [.byte, .ushort, .uint, .ulong]
  | .short => [.ushort, .uint, .ulong]
  | .int => [.uint, .ulong]
  | .long => [.ulong]
  | _ => []

/-- One type is a better target than another: it converts to the other and not the other way round,
or it is preferred to it for its sign. -/
def betterTarget (p q : Primitive) : Bool :=
  (p.converts q && !q.converts p) || (unsignedRivals p).contains q

/-- The operand converts better to one type than to another. -/
def better (x : Operand) (p q : Primitive) : Bool :=
  (x.type == p && x.type != q) || ((x.type == p) == (x.type == q) && betterTarget p q)

end Operand

/-! ## Operators

The language has a table of predefined operators and chooses among them as it chooses among
overloads.  Here the table and the choice are written down as they are; that promotion comes to the
same is proved elsewhere. -/

/-- A predefined operator of two operands. -/
structure Signature where
  left : Primitive
  right : Primitive
  result : Primitive
deriving DecidableEq, Repr

namespace Signature

/-- Operands of one type give a value of it. -/
def homogeneous (p : Primitive) : Signature := ⟨p, p, p⟩

def comparing (p : Primitive) : Signature := ⟨p, p, .bool⟩

/-- One candidate is better than another: no operand converts better to the other, and one converts
better to this. -/
def better (x y : Operand) (s s' : Signature) : Bool :=
  !x.better s'.left s.left && !y.better s'.right s.right &&
    (x.better s.left s'.left || y.better s.right s'.right)

/-- The result of the predefined operator that the operands choose. -/
def resolve (signatures : List Signature) (x y : Operand) : Option Primitive :=
  let candidates := signatures.filter fun s => x.converts s.left && y.converts s.right
  (candidates.find? fun s => candidates.all fun s' => s == s' || better x y s s').map result

end Signature

/-- The numeric types that operators are predefined for. -/
def numericTypes : List Primitive := [.int, .uint, .long, .ulong, .float, .double, .decimal]

def integralTypes : List Primitive := [.int, .uint, .long, .ulong]

/-- The predefined operators of two operands. -/
def binarySignatures (operator : String) : List Signature :=
  if ["*", "/", "%", "-"].contains operator then numericTypes.map .homogeneous
  else if operator == "+" then
    numericTypes.map .homogeneous ++
      [⟨.string, .string, .string⟩, ⟨.string, .object, .string⟩, ⟨.object, .string, .string⟩]
  else if ["<<", ">>"].contains operator then integralTypes.map fun p => ⟨p, .int, p⟩
  else if ["&", "|", "^"].contains operator then (.bool :: integralTypes).map .homogeneous
  else if ["<", ">", "<=", ">="].contains operator then numericTypes.map .comparing
  else if ["==", "!="].contains operator then
    (numericTypes ++ [Primitive.bool, .string, .object]).map .comparing
  else if ["&&", "||"].contains operator then [.homogeneous .bool]
  else []

/-- The operators that change their operand. -/
def steps : List String := ["++", "--"]

/-- The predefined operators of one operand.  Their parameter stands on both sides. -/
def unarySignatures (operator : String) : List Signature :=
  if operator == "+" then numericTypes.map .homogeneous
  else if operator == "-" then [.int, .long, .float, .double, .decimal].map .homogeneous
  else if operator == "~" then integralTypes.map .homogeneous
  else if operator == "!" then [.homogeneous .bool]
  else if steps.contains operator then
    ([Primitive.sbyte, .byte, .short, .ushort, .char] ++ numericTypes).map .homogeneous
  else []

/-! ## Literals

The type of an integer literal is the first of a list that has its value.  The suffix decides which
types are on the list. -/

/-- A digit of a base. -/
def digitValue (c : Char) : Nat :=
  if c.isDigit then c.toNat - '0'.toNat
  else if 'a' ≤ c ∧ c ≤ 'f' then c.toNat - 'a'.toNat + 10
  else c.toNat - 'A'.toNat + 10

/-- The value of digits, with bars between them. -/
def digitsValue (base : Nat) (digits : List Char) : Nat :=
  (digits.filter (· ≠ '_')).foldl (fun v c => v * base + digitValue c) 0

/-- An integer literal. -/
structure IntegerLiteral where
  value : Nat
  /-- It is written in base ten. -/
  isDecimal : Bool
  unsigned : Bool
  long : Bool
deriving DecidableEq, Repr

namespace IntegerLiteral

def marksUnsigned (c : Char) : Bool := c = 'u' || c = 'U'

def marksLong (c : Char) : Bool := c = 'l' || c = 'L'

/-- The suffix at the end of a text, its last character first. -/
def suffixOf (text : List Char) : List Char :=
  (text.reverse.take 2).takeWhile Literal.isIntegerSuffix

def ofText (text : List Char) : IntegerLiteral :=
  let suffix := suffixOf text
  let digits := text.take (text.length - suffix.length)
  let (isDecimal, value) :=
    match digits with
    | '0' :: x :: rest =>
      if x = 'x' ∨ x = 'X' then (false, digitsValue 16 rest)
      else if x = 'b' ∨ x = 'B' then (false, digitsValue 2 rest)
      else (true, digitsValue 10 digits)
    | _ => (true, digitsValue 10 digits)
  { value, isDecimal
    unsigned := suffix.any marksUnsigned
    long := suffix.any marksLong }

/-- The types that the suffix admits. -/
def admitted (l : IntegerLiteral) : List Primitive :=
  match l.unsigned, l.long with
  | true, true => [.ulong]
  | true, false => [.uint, .ulong]
  | false, true => [.long, .ulong]
  | false, false => [.int, .uint, .long, .ulong]

/-- The first of them that has the value. -/
def type? (l : IntegerLiteral) : Option Primitive := l.admitted.find? fun p => p.hasValue l.value

/-- The type whose least value the literal is with a minus in front. -/
def leastType? (l : IntegerLiteral) : Option Primitive :=
  if !l.isDecimal || l.unsigned then none
  else if l.value = 2147483648 && !l.long then some .int
  else if l.value = 9223372036854775808 then some .long
  else none

end IntegerLiteral

/-- The type of a literal. -/
def literalType? (token : Token) : Option StaticType :=
  match token.kind with
  | .integerLiteral => (IntegerLiteral.ofText token.text.toList).type?.map .primitive
  | .realLiteral =>
    match token.text.toList.getLast? with
    | some c =>
      if c = 'f' ∨ c = 'F' then some (.primitive .float)
      else if c = 'm' ∨ c = 'M' then some (.primitive .decimal)
      else some (.primitive .double)
    | none => none
  | .stringLiteral => some (.primitive .string)
  | .characterLiteral => some (.primitive .char)
  | .keyword =>
    if token.text = "true" ∨ token.text = "false" then some (.primitive .bool)
    else if token.text = "null" then some .null
    else none
  | _ => none

/-! ## Expressions

An expression keeps only what types depend on: its operators, its literals and the types that it
writes. -/

inductive Expr where
  | literal (token : Token)
  /-- A name of a variable that is declared with a built-in type. -/
  | named (name : NodeId) (type : Primitive)
  | parenthesized (e : Expr)
  | unary (operator : String) (e : Expr)
  /-- An increment or a decrement, in front of its operand or behind it. -/
  | step (operator : String) (e : Expr)
  | binary (operator : String) (left right : Expr)
  | cast (type : Primitive) (e : Expr)
  | conditional (condition whenTrue whenFalse : Expr)
deriving DecidableEq, Repr

namespace Expr

/-- The type whose least value the operand of a minus is, when it is one. -/
def leastType? (operator : String) : Expr → Option Primitive
  | literal token =>
    if operator = "-" ∧ token.kind = .integerLiteral then
      (IntegerLiteral.ofText token.text.toList).leastType?
    else none
  | _ => none

section

variable (constant? : Expr → Option Int)

/-- An expression of a built-in type as an operand. -/
def operand (e : Expr) (type : Primitive) : Operand := ⟨type, constant? e⟩

/-- The type of an operation on two operands.  The literal that stands for no object can be compared
and put behind or in front of a string. -/
def binaryType? (operator : String) (left right : Expr) :
    Option StaticType → Option StaticType → Option StaticType
  | some (.primitive p), some (.primitive q) =>
    (Signature.resolve (binarySignatures operator) (operand constant? left p)
      (operand constant? right q)).map .primitive
  | some .null, some (.primitive p) | some (.primitive p), some .null =>
    if operator = "==" ∨ operator = "!=" then some (.primitive .bool)
    else if operator = "+" ∧ p = .string then some (.primitive .string)
    else none
  | _, _ => none

/-- A branch of a conditional converts to the type of the other. -/
def branchConverts (e : Expr) : StaticType → StaticType → Bool
  | .primitive p, .primitive q => (operand constant? e p).converts q
  | .null, .primitive q => q == .string || q == .object
  | _, _ => false

/-- The type of a conditional: the type of one branch to which the other converts, and of two such
the one to which the other type converts. -/
def conditionalType? (whenTrue whenFalse : Expr) (p q : StaticType) : Option StaticType :=
  if p = q then if p = .null then none else some p
  else
    match branchConverts constant? whenFalse q p, branchConverts constant? whenTrue p q with
    | true, false => some p
    | false, true => some q
    | true, true =>
      match p, q with
      | .primitive p, .primitive q =>
        if p.converts q then some (.primitive q)
        else if q.converts p then some (.primitive p)
        else none
      | _, _ => none
    | false, false => none

/-- The type that the language gives to an expression; none when it gives none. -/
def type? : Expr → Option StaticType
  | literal token => literalType? token
  | named _ p => some (.primitive p)
  | parenthesized e => e.type?
  | unary operator e =>
    match e.leastType? operator with
    | some p => some (.primitive p)
    | none =>
      match e.type? with
      | some (.primitive p) =>
        (Signature.resolve (unarySignatures operator) (operand constant? e p)
          (operand constant? e p)).map .primitive
      | _ => none
  | step operator e =>
    match e.type? with
    | some (.primitive p) =>
      (Signature.resolve (unarySignatures operator) ⟨p, none⟩ ⟨p, none⟩).map .primitive
    | _ => none
  | binary operator left right => binaryType? constant? operator left right left.type? right.type?
  | cast p e => e.type?.map fun _ => .primitive p
  | conditional c whenTrue whenFalse =>
    match c.type?, whenTrue.type?, whenFalse.type? with
    | some (.primitive .bool), some p, some q => conditionalType? constant? whenTrue whenFalse p q
    | _, _, _ => none

end

/-! ## Reading expressions

An expression is read from the nodes of a document.  A node outside of this part of the language
spells none, so a theorem about expressions that are read says nothing about it. -/

/-- The built-in type that a node writes. -/
def writtenPrimitive? (t : Tree) (n : NodeId) : Option Primitive :=
  if t.kind n == .predefinedType then Primitive.ofKeyword? (t.text n) else none

/-- The built-in type that the variable of a name is declared with. -/
def declaredPrimitive? (t : Tree) (n : NodeId) : Option Primitive :=
  ((siteLookup? t (t.token (t.firstToken n)).valueText n).bind fun site =>
    site.typeNode? t).bind (writtenPrimitive? t)

/-- The expression that a node spells; `fuel` bounds its depth. -/
def readFuel (t : Tree) : Nat → NodeId → Option Expr
  | 0, _ => none
  | fuel + 1, n =>
    match t.kind n, t.childNodes n with
    | .literalExpression, _ => some (.literal (t.token (t.firstToken n)))
    | .identifierName, _ => (declaredPrimitive? t n).map (.named n)
    | .parenthesizedExpression, [e] => (readFuel t fuel e).map .parenthesized
    | .prefixUnaryExpression, [e] =>
      let operator := (t.token (t.firstToken n)).text
      (readFuel t fuel e).map
        (if steps.contains operator then .step operator else .unary operator)
    | .postfixUnaryExpression, [e] =>
      let operator := (t.token (t.lastToken n)).text
      if steps.contains operator then (readFuel t fuel e).map (.step operator) else none
    | .binaryExpression, [left, right] => do
      let operator := String.join ((t.childTokens n).map fun i => (t.token i).text)
      return .binary operator (← readFuel t fuel left) (← readFuel t fuel right)
    | .castExpression, [type, e] => do
      return .cast (← writtenPrimitive? t type) (← readFuel t fuel e)
    | .conditionalExpression, [c, whenTrue, whenFalse] => do
      return .conditional (← readFuel t fuel c) (← readFuel t fuel whenTrue)
        (← readFuel t fuel whenFalse)
    | _, _ => none

/-- The expression that a node spells. -/
def read? (t : Tree) (n : NodeId) : Option Expr := readFuel t (t.nodeCount + 1) n

end Expr

end CodeMend
