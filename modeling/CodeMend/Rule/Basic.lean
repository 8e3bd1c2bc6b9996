import CodeMend.Text.Unicode.Classes

/-!
# CodeMend — rules

The rules that findings are reported under.  A rule is named by its id; the order of the rules is
that of their ids.

* **`Rule.ofId?`** — the rule that an id names.
* **`RuleSet`** — the rules that a run is restricted to.
-/

namespace CodeMend

inductive Rule where
  /-- A parameter is passed by reference and never written. -/
  | unneededRef
  /-- A parameter is passed by reference and always written before it is read. -/
  | refAsOut
  /-- Both branches call the same method, and the calls differ in one argument. -/
  | duplicateCall
  /-- A value is converted to the type that it has. -/
  | redundantConversion
  /-- A method without result gives one out. -/
  | outAsResult
  /-- A method without result gives several out. -/
  | outsAsTuple
deriving DecidableEq, Repr, Inhabited

namespace Rule

/-- All rules, in order. -/
def all : List Rule :=
  [unneededRef, refAsOut, duplicateCall, redundantConversion, outAsResult, outsAsTuple]

/-- The number in the id of a rule. -/
def number : Rule → Nat
  | unneededRef => 1
  | refAsOut => 2
  | duplicateCall => 3
  | redundantConversion => 5
  | outAsResult => 10
  | outsAsTuple => 11

def id : Rule → String
  | unneededRef => "ACNU0001"
  | refAsOut => "ACNU0002"
  | duplicateCall => "ACNU0003"
  | redundantConversion => "ACNU0005"
  | outAsResult => "ACNU0010"
  | outsAsTuple => "ACNU0011"

/-- The text without the whitespace around it. -/
def trimmed (cs : List Char) : List Char :=
  ((cs.dropWhile Unicode.isWhitespace).reverse.dropWhile Unicode.isWhitespace).reverse

/-- The rule that an id names; whitespace around it and the case of its letters do not count. -/
def ofId? (s : String) : Option Rule :=
  let key := (trimmed s.toList).map Char.toUpper
  all.find? fun r => r.id.toList == key

end Rule

/-- The rules that a run is restricted to. -/
abbrev RuleSet := List Rule

/-- How much a finding matters. -/
inductive Severity where
  | warning
  | info
deriving DecidableEq, Repr

def Severity.name : Severity → String
  | .warning => "warning"
  | .info => "info"

end CodeMend
