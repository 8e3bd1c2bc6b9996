import CodeMend.Model.Symbols

/-!
# CodeMend — overload resolution

A method accepts a list of arguments when each one finds a parameter, by position or by name, is
passed the way the parameter asks for, and converts to its type.  Of several methods that accept the
arguments, the one with the most exact types wins, and among equals the most specific one.

* **`bindArgument?`** — the parameter that takes an argument.
* **`applicable?`** — what a method makes of a list of arguments.
* **`best?`** — the method that wins, if one does.
-/

namespace CodeMend

/-- An argument as overload resolution sees it. -/
structure ArgumentInfo where
  name : Option String
  mode : PassMode
  type : StaticType
deriving DecidableEq, Repr

/-- A method that accepts the arguments. -/
structure Applicable where
  method : MethodId
  /-- The type that each argument converts to. -/
  targets : List StaticType
  /-- How many arguments have exactly that type. -/
  exact : Nat
deriving DecidableEq, Repr

namespace Overloads

/-- The index of the parameter that takes the argument at a position.  A positional argument may not
follow a named one, and past the last parameter only one that collects arguments takes any. -/
def bindArgument? (parameters : List ParameterSymbol) (position : Nat) (namedSeen : Bool)
    (name : Option String) : Option Nat :=
  match name with
  | some name => parameters.findIdx? fun p => p.name == name
  | none =>
    if namedSeen then none
    else if position < parameters.length then some position
    else if parameters.getLast?.any ParameterSymbol.isParams then some (parameters.length - 1)
    else none

/-- An argument is passed the way a parameter asks for; one that is read only takes plain arguments
too. -/
def modeMatches (parameter argument : PassMode) : Bool :=
  match parameter with
  | .input => argument == .value || argument == .input
  | mode => mode == argument

/-- The type that an argument converts to when it is passed to a parameter.  References need the
very type; a parameter that collects arguments takes an array or an element of it. -/
def target? (p : ParameterSymbol) (argument : StaticType) : Option StaticType :=
  match p.mode with
  | .ref | .out =>
    if argument == p.type || !argument.isKnown || !p.type.isKnown then some p.type else none
  | _ =>
    if argument.convertsTo p.type then some p.type
    else
      match p.type, p.isParams with
      | .array element, true => if argument.convertsTo element then some element else none
      | _, _ => none

/-- What was found out about the arguments so far. -/
structure Progress where
  filled : List Nat := []
  targets : List StaticType := []
  exact : Nat := 0
  namedSeen : Bool := false

/-- Pass the argument at a position. -/
def passArgument? (parameters : List ParameterSymbol) (position : Nat) (s : Progress)
    (a : ArgumentInfo) : Option Progress := do
  let index ← bindArgument? parameters position s.namedSeen a.name
  let p ← parameters[index]?
  if s.filled.contains index && !p.isParams then none
  else if !modeMatches p.mode a.mode then none
  else
    let target ← target? p a.type
    return {
      filled := index :: s.filled
      targets := s.targets ++ [target]
      -- Counted for the choice among the methods that accept all arguments.
      exact := if a.type.isKnown && a.type == target then s.exact + 1 else s.exact
      namedSeen := s.namedSeen || a.name.isSome }

/-- Pass all arguments from a position on. -/
def passArguments? (parameters : List ParameterSymbol) :
    Nat → Progress → List ArgumentInfo → Option Progress
  | _, s, [] => some s
  | position, s, a :: rest => do
    passArguments? parameters (position + 1) (← passArgument? parameters position s a) rest

/-- Every parameter without an argument can do without. -/
def complete (parameters : List ParameterSymbol) (filled : List Nat) : Bool :=
  parameters.zipIdx.all fun (p, i) => filled.contains i || p.hasDefault || p.isParams

/-- What a method makes of the arguments, when it accepts them. -/
def applicable? (m : MethodSymbol) (arguments : List ArgumentInfo) : Option Applicable := do
  let s ← passArguments? m.parameters 0 {} arguments
  if complete m.parameters s.filled then return ⟨m.id, s.targets, s.exact⟩ else none

/-- Every target of one method is known and converts to that of the other. -/
def dominates (a b : Applicable) : Bool :=
  (a.targets.zip b.targets).all fun (x, y) => x.isKnown && y.isKnown && x.convertsTo y

/-- The one element of a list that has exactly one. -/
def only? {α : Type} : List α → Option α
  | [a] => some a
  | _ => none

/-- The method with the most exact arguments; among equals the one whose targets convert to those of
every other, but not the other way round. -/
def best? (candidates : List Applicable) : Option MethodId := do
  let most ← (candidates.map Applicable.exact).max?
  let tied := candidates.filter fun a => a.exact == most
  match tied with
  | [a] => return a.method
  | _ =>
    let winners := tied.filter fun a => tied.all fun b =>
      a.method == b.method || (dominates a b && !dominates b a)
    return (← only? winners).method

end Overloads

end CodeMend
