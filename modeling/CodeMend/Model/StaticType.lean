import CodeMend.Text.Bytes

/-!
# CodeMend — static types

Only what the rules need is told apart: the built-in types, named types of the source, arrays,
nullables and tuples.  Everything else is `unknown`.

* **`convertsTo`** — implicit conversion, identity included.
* **`promote`** — the type of an arithmetic operation.
-/

namespace CodeMend

/-- A built-in type. -/
inductive Primitive where
  | bool
  | byte
  | sbyte
  | short
  | ushort
  | int
  | uint
  | long
  | ulong
  | char
  | float
  | double
  | decimal
  | string
  | object
deriving DecidableEq, Repr

namespace Primitive

/-- The built-in types with their keywords and their names in the framework. -/
def names : List (Primitive × String × String) := [
  (.bool, "bool", "Boolean"),
  (.byte, "byte", "Byte"),
  (.sbyte, "sbyte", "SByte"),
  (.short, "short", "Int16"),
  (.ushort, "ushort", "UInt16"),
  (.int, "int", "Int32"),
  (.uint, "uint", "UInt32"),
  (.long, "long", "Int64"),
  (.ulong, "ulong", "UInt64"),
  (.char, "char", "Char"),
  (.float, "float", "Single"),
  (.double, "double", "Double"),
  (.decimal, "decimal", "Decimal"),
  (.string, "string", "String"),
  (.object, "object", "Object")]

def keyword (p : Primitive) : String := ((names.lookup p).map Prod.fst).getD "object"

def frameworkName (p : Primitive) : String := ((names.lookup p).map Prod.snd).getD "Object"

/-- The built-in type of a keyword. -/
def ofKeyword? (word : String) : Option Primitive :=
  (names.find? fun (_, k, _) => k == word).map Prod.fst

/-- The text without something at its front, if that stands there. -/
def dropFront (front text : String) : String :=
  match dropFront? front.toList text.toList with
  | some rest => String.ofList rest
  | none => text

/-- The built-in type of a framework name, which may be qualified. -/
def ofFrameworkName? (name : String) : Option Primitive :=
  let bare := dropFront "System." (dropFront "global::" name)
  (names.find? fun (_, _, n) => n == bare).map Prod.fst

def isNumeric (p : Primitive) : Bool := p != .bool && p != .string && p != .object

def isSignedIntegral (p : Primitive) : Bool := p == .sbyte || p == .short || p == .int || p == .long

/-- The numeric types that a type converts to implicitly, itself left out. -/
def wider : Primitive → List Primitive
  | .sbyte => [.short, .int, .long, .float, .double, .decimal]
  | .byte => [.short, .ushort, .int, .uint, .long, .ulong, .float, .double, .decimal]
  | .short => [.int, .long, .float, .double, .decimal]
  | .ushort => [.int, .uint, .long, .ulong, .float, .double, .decimal]
  | .int => [.long, .float, .double, .decimal]
  | .uint => [.long, .ulong, .float, .double, .decimal]
  | .long | .ulong => [.float, .double, .decimal]
  | .char => [.ushort, .int, .uint, .long, .ulong, .float, .double, .decimal]
  | .float => [.double]
  | _ => []

def widensTo (a b : Primitive) : Bool := (wider a).contains b

/-- The type of an arithmetic operation on two numeric types; none when they do not mix. -/
def promote? (a b : Primitive) : Option Primitive :=
  let either (p : Primitive) : Bool := a == p || b == p
  let signed := a.isSignedIntegral || b.isSignedIntegral
  if !a.isNumeric || !b.isNumeric then none
  else if either .decimal then if either .float || either .double then none else some .decimal
  else if either .double then some .double
  else if either .float then some .float
  else if either .ulong then if signed then none else some .ulong
  else if either .long then some .long
  else if either .uint then if signed then some .long else some .uint
  else some .int

end Primitive

/-- The type of an expression or a declaration. -/
inductive StaticType where
  | primitive (p : Primitive)
  | void
  /-- The type of the literal that stands for no object. -/
  | null
  /-- A named type.  Types of the source go by their qualified name, all others as written. -/
  | named (name : String)
  | array (element : StaticType)
  | nullable (element : StaticType)
  | tuple (items : List StaticType)
  | unknown
deriving Repr, Inhabited

namespace StaticType

/-! ## Equality

Types are nested, and `deriving` does not go through lists, so equality is decided by hand. -/

mutual

/-- Both types are built alike. -/
def same : StaticType → StaticType → Bool
  | .primitive p, .primitive q => p == q
  | .void, .void => true
  | .null, .null => true
  | .named m, .named n => m == n
  | .array a, .array b => same a b
  | .nullable a, .nullable b => same a b
  | .tuple as, .tuple bs => sameAll as bs
  | .unknown, .unknown => true
  | _, _ => false

def sameAll : List StaticType → List StaticType → Bool
  | [], [] => true
  | a :: as, b :: bs => same a b && sameAll as bs
  | _, _ => false

end

mutual

theorem same_iff (a b : StaticType) : same a b = true ↔ a = b := by
  match a with
  | .array a => cases b with
    | array b => simp [same, same_iff a b]
    | _ => simp [same]
  | .nullable a => cases b with
    | nullable b => simp [same, same_iff a b]
    | _ => simp [same]
  | .tuple as => cases b with
    | tuple bs => simp [same, sameAll_iff as bs]
    | _ => simp [same]
  | .primitive p => cases b <;> simp [same]
  | .named m => cases b <;> simp [same]
  | .void => cases b <;> simp [same]
  | .null => cases b <;> simp [same]
  | .unknown => cases b <;> simp [same]

theorem sameAll_iff (as bs : List StaticType) : sameAll as bs = true ↔ as = bs := by
  match as, bs with
  | [], [] => simp [sameAll]
  | a :: as, b :: bs => simp [sameAll, same_iff a b, sameAll_iff as bs]
  | [], _ :: _ => simp [sameAll]
  | _ :: _, [] => simp [sameAll]

end

instance : DecidableEq StaticType := fun a b => decidable_of_iff _ (same_iff a b)

/-! ## Conversion and promotion

Conversion is asked for in both directions of ignorance: a type that is not known never rules
anything out. -/

mutual

/-- No part of the type is unknown. -/
def isKnown : StaticType → Bool
  | .unknown => false
  | .array t | .nullable t => isKnown t
  | .tuple ts => allKnown ts
  | _ => true

def allKnown : List StaticType → Bool
  | [] => true
  | t :: ts => isKnown t && allKnown ts

end

def primitive? : StaticType → Option Primitive
  | .primitive p => some p
  | _ => none

/-- Null is a value of the type. -/
def isReferenceLike : StaticType → Bool
  | .primitive .string | .primitive .object | .named _ | .array _ | .nullable _ => true
  | _ => false

mutual

/-- Implicit conversion, identity included.  A type that is not known converts both ways, so that it
never rules anything out. -/
def convertsTo (a : StaticType) (b : StaticType) : Bool :=
  if a == b || !isKnown a || !isKnown b then true
  else
    match b with
    | .primitive .object => a != .void
    | .primitive q =>
      match a with
      | .primitive p => p.widensTo q
      | .null => isReferenceLike (.primitive q)
      | _ => false
    | .nullable t => if a == .null then true else convertsTo a t
    | .tuple ts =>
      match a with
      | .tuple ss => allConvert ss ts
      | _ => false
    | t => a == .null && isReferenceLike t

/-- The types of one list convert to those of another of the same length. -/
def allConvert (as : List StaticType) (bs : List StaticType) : Bool :=
  match bs with
  | [] => as.isEmpty
  | b :: bs =>
    match as with
    | [] => false
    | a :: as => convertsTo a b && allConvert as bs

end

/-- The type of an arithmetic operation on two types. -/
def promote (a b : StaticType) : StaticType :=
  match a, b with
  | .primitive p, .primitive q =>
    match p.promote? q with
    | some r => .primitive r
    | none => .unknown
  | _, _ => .unknown

mutual

/-- The type as it is written in a source. -/
def render : StaticType → String
  | .primitive p => p.keyword
  | .void => "void"
  | .null => "null"
  | .named name => name
  | .array t => render t ++ "[]"
  | .nullable t => render t ++ "?"
  | .tuple ts => "(" ++ renderItems true ts ++ ")"
  | .unknown => "?"

/-- The items of a tuple; `first` tells that none stands before them. -/
def renderItems (first : Bool) : List StaticType → String
  | [] => ""
  | t :: ts => (if first then "" else ", ") ++ render t ++ renderItems false ts

end

end StaticType

/-- A type that a source knows without declaring it, with its static methods. -/
structure LibraryMethod where
  name : String
  parameters : List StaticType
  returnType : StaticType
deriving DecidableEq, Repr

structure LibraryType where
  namespaceName : String
  name : String
  methods : List LibraryMethod
deriving DecidableEq, Repr

namespace LibraryType

/-- The types that the conversion methods take. -/
def convertible : List Primitive := [
  .bool, .byte, .char, .decimal, .double, .float, .int, .long, .object, .sbyte, .short, .string,
  .uint, .ulong, .ushort]

/-- The conversion methods and what each one returns. -/
def conversions : List (String × Primitive) := [
  ("ToBoolean", .bool),
  ("ToByte", .byte),
  ("ToChar", .char),
  ("ToDecimal", .decimal),
  ("ToDouble", .double),
  ("ToInt16", .short),
  ("ToInt32", .int),
  ("ToInt64", .long),
  ("ToSByte", .sbyte),
  ("ToSingle", .float),
  ("ToString", .string),
  ("ToUInt16", .ushort),
  ("ToUInt32", .uint),
  ("ToUInt64", .ulong)]

/-- The class of conversions: every conversion has an overload for every convertible type. -/
def convert : LibraryType where
  namespaceName := "System"
  name := "Convert"
  methods := conversions.flatMap fun (name, result) =>
    convertible.map fun source => ⟨name, [.primitive source], .primitive result⟩

/-- All types that a source knows without declaring them. -/
def all : List LibraryType := [convert]

end LibraryType

end CodeMend
